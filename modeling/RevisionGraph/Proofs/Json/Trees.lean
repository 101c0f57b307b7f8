import RevisionGraph.Json.Sorted
import RevisionGraph.Proofs.Json.Lexing

/-!
# Trees of written values

The text of a value is read as the tree of the value (`Value.parse_compact`, `Value.parse_pretty`),
and that tree has the value again if it is not nested too deep (`Value.value?_tree`). What is read
is never nested deeper than it may be (`Tree.nesting_le_of_value?`).
-/

namespace RevisionGraph.Json

namespace Tree

/-! ### From tokens to a tree -/

def run (state : State) (tokens : List Token) : Option State := tokens.foldlM step state

theorem run_cons (state : State) (token : Token) (tokens : List Token) :
    run state (token :: tokens) = (step state token).bind fun state => run state tokens := rfl

/-- The tokens of a value are read as its tree, whatever comes after them. -/
def Reads (tokens : List Token) (tree : Tree) : Prop :=
  ∀ stack rest, run (.value stack) (tokens ++ rest) = run (.done tree stack) rest

def ReadsMember (tokens : List Token) (member : Option String × Tree) : Prop :=
  ∀ before stack rest, run (.key before stack) (tokens ++ rest) =
    run (.done member.2 (.object before member.1 :: stack)) rest

theorem Reads.member {tokens : List Token} {tree : Tree} (reads : Reads tokens tree)
    (key : Option String) : ReadsMember (.text key :: .colon :: tokens) (key, tree) := by
  intro before stack rest
  exact reads (.object before key :: stack) rest

variable {part : List Token} {parts : List (List Token)}

theorem run_items {tree : Tree} {trees : List Tree}
    (each : List.Forall₂ Reads (part :: parts) (tree :: trees)) (before : List Tree)
    (stack : List Frame) (rest : List Token) :
    run (.value (.array before :: stack))
        ([.comma].intercalate (part :: parts) ++ .closeArray :: rest) =
      run (.done (.array (before.reverse ++ tree :: trees)) stack) rest := by
  induction parts generalizing part tree trees before with
  | nil =>
    cases each with
    | cons first others =>
      cases others
      rw [List.intercalate_singleton, first, run_cons]
      simp [step, close]
  | cons next parts ih =>
    cases each with
    | cons first others =>
      cases others with
      | cons second others =>
        rw [List.intercalate_cons_cons, List.append_assoc, List.append_assoc, first]
        have later := ih (.cons second others) (tree :: before)
        simp only [List.reverse_cons, List.append_assoc, List.singleton_append] at later
        rw [← later]
        rfl

theorem run_members {member : Option String × Tree} {members : List (Option String × Tree)}
    (each : List.Forall₂ ReadsMember (part :: parts) (member :: members))
    (before : List (Option String × Tree)) (stack : List Frame) (rest : List Token) :
    run (.key before stack) ([.comma].intercalate (part :: parts) ++ .closeObject :: rest) =
      run (.done (.object (before.reverse ++ member :: members)) stack) rest := by
  induction parts generalizing part member members before with
  | nil =>
    cases each with
    | cons first others =>
      cases others
      rw [List.intercalate_singleton, first, run_cons]
      simp [step, close]
  | cons next parts ih =>
    cases each with
    | cons first others =>
      cases others with
      | cons second others =>
        rw [List.intercalate_cons_cons, List.append_assoc, List.append_assoc, first]
        have later := ih (.cons second others) (member :: before)
        simp only [List.reverse_cons, List.append_assoc, List.singleton_append] at later
        rw [← later]
        rfl

end Tree

namespace Value

open Token Json.Tree

/-- No value starts with a token that ends a list, so the first item is read as any other. -/
theorem run_item (v : Value) (stack : List Frame) (rest : List Token) :
    run (.item stack) (v.tokens ++ rest) =
      run (.value (.array [] :: stack)) (v.tokens ++ rest) := by
  cases v <;> rfl

theorem exists_intercalate_cons {α : Type} (separator part : List α) (parts : List (List α)) :
    ∃ rest, separator.intercalate (part :: parts) = part ++ rest := by
  cases parts with
  | nil => exact ⟨[], by simp⟩
  | cons next parts => exact ⟨_, by rw [List.intercalate_cons_cons, List.append_assoc]⟩

theorem run_array (item : Value) (items : List Value) (stack : List Frame) (rest : List Token) :
    run (.value stack) ((Value.array (item :: items)).tokens ++ rest) =
      run (.value (.array [] :: stack))
        ([.comma].intercalate (itemTokens (item :: items)) ++ .closeArray :: rest) := by
  obtain ⟨others, written⟩ := exists_intercalate_cons [Token.comma] item.tokens (itemTokens items)
  rw [tokens, itemTokens, written]
  simp only [List.cons_append, List.append_assoc, List.nil_append]
  rw [← run_item]
  rfl

theorem run_object (member : String × Value) (members : List (String × Value))
    (stack : List Frame) (rest : List Token) :
    run (.value stack) ((Value.object (member :: members)).tokens ++ rest) =
      run (.key [] stack)
        ([.comma].intercalate (memberTokens (member :: members)) ++ .closeObject :: rest) := by
  obtain ⟨key, value⟩ := member
  obtain ⟨others, written⟩ := exists_intercalate_cons [Token.comma]
    (.text (some key) :: .colon :: value.tokens) (memberTokens members)
  rw [tokens, memberTokens, written]
  simp only [List.cons_append, List.append_assoc, List.nil_append]
  rfl

mutual

theorem reads_tokens (v : Value) : Reads v.tokens v.tree := by
  intro stack rest
  match v with
  | .null | .bool _ | .number _ | .text _ | .array [] | .object [] => rfl
  | .array (item :: items) =>
    rw [run_array]
    exact run_items (reads_itemTokens (item :: items)) [] stack rest
  | .object ((key, value) :: members) =>
    rw [run_object]
    exact run_members (reads_memberTokens ((key, value) :: members)) [] stack rest

theorem reads_itemTokens (items : List Value) :
    List.Forall₂ Reads (itemTokens items) (itemTrees items) := by
  match items with
  | [] => exact .nil
  | item :: items => exact .cons (reads_tokens item) (reads_itemTokens items)

theorem reads_memberTokens (members : List (String × Value)) :
    List.Forall₂ ReadsMember (memberTokens members) (memberTrees members) := by
  match members with
  | [] => exact .nil
  | (key, value) :: members =>
    exact .cons ((reads_tokens value).member (some key)) (reads_memberTokens members)

end

theorem ofTokens?_tokens (v : Value) : Tree.ofTokens? v.tokens = some v.tree := by
  have read := reads_tokens v [] []
  rw [List.append_nil] at read
  unfold Tree.ofTokens?
  show (run (.value []) v.tokens).bind result? = _
  rw [read]
  rfl

theorem parse_compact {v : Value} (floatless : v.floatless = true) :
    Tree.parse (Runes.ofString v.compact) = some v.tree := by
  rw [Tree.parse, lex_compact floatless, Option.bind_some, ofTokens?_tokens]

theorem parse_pretty {v : Value} (floatless : v.floatless = true) :
    Tree.parse (Runes.ofString v.pretty) = some v.tree := by
  rw [Tree.parse, lex_pretty floatless, Option.bind_some, ofTokens?_tokens]

/-! ### From a tree to its value -/

mutual

/-- How deep arrays and objects are nested in the value. -/
def nesting : Value → Nat
  | .array items => nestingItems items + 1
  | .object members => nestingMembers members + 1
  | _ => 0

def nestingItems : List Value → Nat
  | [] => 0
  | item :: rest => max item.nesting (nestingItems rest)

def nestingMembers : List (String × Value) → Nat
  | [] => 0
  | (_, value) :: rest => max value.nesting (nestingMembers rest)

end

theorem nestingItems_le_iff {items : List Value} {n : Nat} :
    nestingItems items ≤ n ↔ ∀ item ∈ items, item.nesting ≤ n := by
  induction items with
  | nil => simp [nestingItems]
  | cons item items ih => rw [nestingItems, Nat.max_le, ih, List.forall_mem_cons]

theorem nestingMembers_le_iff {members : List (String × Value)} {n : Nat} :
    nestingMembers members ≤ n ↔ ∀ member ∈ members, member.2.nesting ≤ n := by
  induction members with
  | nil => simp [nestingMembers]
  | cons member members ih => rw [nestingMembers, Nat.max_le, ih, List.forall_mem_cons]

theorem ite_some_bind {α β : Type} (p : Prop) [Decidable p] (a : α) (f : α → Option β) :
    (if p then some a else none).bind f = if p then f a else none := by
  split <;> rfl

mutual

/-- A tree has the value that it was written from, where it is not nested too deep. -/
theorem value?_tree {v : Value} (sorted : v.IsSorted) (depth : Nat) :
    Tree.value? depth v.tree = if v.nesting ≤ depth then some v else none := by
  match v, depth with
  | .null, _ | .bool _, _ | .number _, _ | .text _, _ => rfl
  | .array items, 0 | .object members, 0 => rfl
  | .array items, depth + 1 =>
    cases sorted with
    | array sorted =>
    simp only [nesting, Nat.add_le_add_iff_right, tree, Tree.value?, itemValues?_itemTrees sorted]
    split <;> rfl
  | .object members, depth + 1 =>
    cases sorted with
    | object ascending sorted =>
    simp only [nesting, Nat.add_le_add_iff_right, tree, Tree.value?,
      memberValues?_memberTrees sorted]
    split
    · rw [Option.map_some, object', SortedMap.toList_ofList ascending]
    · rfl

theorem itemValues?_itemTrees {items : List Value} (sorted : AllSorted items) (depth : Nat) :
    Tree.itemValues? depth (itemTrees items) =
      if nestingItems items ≤ depth then some items else none := by
  match items with
  | [] => simp [itemTrees, Tree.itemValues?, nestingItems]
  | item :: rest =>
    cases sorted with
    | cons first others =>
    simp only [itemTrees, Tree.itemValues?, nestingItems, Nat.max_le, Option.bind_eq_bind,
      value?_tree first, itemValues?_itemTrees others, ite_some_bind, ite_and]
    rfl

theorem memberValues?_memberTrees {members : List (String × Value)}
    (sorted : AllSorted (members.map Prod.snd)) (depth : Nat) :
    Tree.memberValues? depth (memberTrees members) =
      if nestingMembers members ≤ depth then some members else none := by
  match members with
  | [] => simp [memberTrees, Tree.memberValues?, nestingMembers]
  | (key, value) :: rest =>
    cases sorted with
    | cons first others =>
    simp only [memberTrees, Tree.memberValues?, nestingMembers, Nat.max_le, Option.bind_eq_bind,
      Option.bind_some, value?_tree first, memberValues?_memberTrees others, ite_some_bind, ite_and]
    rfl

end

end Value

namespace Tree

/-! ### How deep a value that is read is nested -/

mutual

theorem nesting_le_of_value? {depth : Nat} {tree : Tree} {v : Value}
    (read : value? depth tree = some v) : v.nesting ≤ depth := by
  match tree, depth with
  | .null, _ | .bool _, _ | .number _, _ | .text _, _ =>
    cases read
    exact Nat.zero_le _
  | .valueless, _ | .array _, 0 | .object _, 0 => cases read
  | .array items, depth + 1 =>
    obtain ⟨values, readItems, rfl⟩ := Option.map_eq_some_iff.1 read
    exact Nat.succ_le_succ (Value.nestingItems_le_iff.2 (nesting_le_of_itemValues? readItems))
  | .object members, depth + 1 =>
    obtain ⟨values, readMembers, rfl⟩ := Option.map_eq_some_iff.1 read
    have each := nesting_le_of_memberValues? readMembers
    refine Nat.succ_le_succ (Value.nestingMembers_le_iff.2 fun member mem => ?_)
    rcases SortedMap.mem_of_mem_insertMany mem with mem | mem
    · cases mem
    · exact each member mem

theorem nesting_le_of_itemValues? {depth : Nat} {items : List Tree} {values : List Value}
    (read : itemValues? depth items = some values) : ∀ v ∈ values, v.nesting ≤ depth := by
  match items with
  | [] =>
    cases read
    simp
  | item :: rest =>
    simp only [itemValues?, Option.bind_eq_bind, Option.bind_eq_some_iff, Option.pure_def,
      Option.some.injEq] at read
    obtain ⟨first, readFirst, others, readOthers, rfl⟩ := read
    exact List.forall_mem_cons.2
      ⟨nesting_le_of_value? readFirst, nesting_le_of_itemValues? readOthers⟩

theorem nesting_le_of_memberValues? {depth : Nat} {members : List (Option String × Tree)}
    {values : List (String × Value)} (read : memberValues? depth members = some values) :
    ∀ member ∈ values, member.2.nesting ≤ depth := by
  match members with
  | [] =>
    cases read
    simp
  | (key, tree) :: rest =>
    simp only [memberValues?, Option.bind_eq_bind, Option.bind_eq_some_iff, Option.pure_def,
      Option.some.injEq] at read
    obtain ⟨_, _, first, readFirst, others, readOthers, rfl⟩ := read
    exact List.forall_mem_cons.2
      ⟨nesting_le_of_value? readFirst, nesting_le_of_memberValues? readOthers⟩

end

end Tree

end RevisionGraph.Json
