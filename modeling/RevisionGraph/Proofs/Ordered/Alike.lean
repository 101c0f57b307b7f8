import RevisionGraph.Ordered.Lookup

/-!
# Maps with alike values

Two maps are alike if they hold related values, or none, under each key. For equality of values this
is equality of the maps (`SortedMap.alike_eq`), and for values that are compared by `==` it is how
the maps are compared (`SortedMap.alike_beq`).
-/

namespace RevisionGraph

variable {κ α : Type}

theorem rel_eq_iff {a b : Option α} : Option.Rel Eq a b ↔ a = b := by
  cases a <;> cases b <;> simp

theorem rel_beq_iff [BEq α] {a b : Option α} : Option.Rel (fun a b => a == b) a b ↔ a == b := by
  cases a <;> cases b <;> simp

theorem rel_imp {R S : α → α → Prop} {a b : Option α} (alike : Option.Rel R a b)
    (implies : ∀ a b, R a b → S a b) : Option.Rel S a b := by
  cases alike with
  | some related => exact .some (implies _ _ related)
  | none => exact .none

theorem isSome_eq_of_rel {R : α → α → Prop} {a b : Option α} (alike : Option.Rel R a b) :
    a.isSome = b.isSome := by
  cases alike <;> rfl

/-! ### Comparing entries -/

variable [Ord κ] [DecidableEq κ] [Std.LawfulEqOrd κ]

section Entries

variable [BEq κ] [LawfulBEq κ] [BEq α]

theorem rel_lookupEntry_of_beq {entries others : List (κ × α)} (same : entries == others)
    (key : κ) :
    Option.Rel (fun a b => a == b) (lookupEntry key entries) (lookupEntry key others) := by
  induction entries generalizing others with
  | nil =>
    cases others with
    | nil => exact .none
    | cons other others => cases same
  | cons entry entries ih =>
    cases others with
    | nil => cases same
    | cons other others =>
      obtain ⟨heads, tails⟩ := Bool.and_eq_true_iff.1 same
      obtain ⟨keys, values⟩ := Bool.and_eq_true_iff.1 heads
      rw [lookupEntry_cons, lookupEntry_cons, ← eq_of_beq keys]
      split
      · exact .some values
      · exact ih tails

variable [Std.TransOrd κ]

omit [DecidableEq κ] [Std.LawfulEqOrd κ] [BEq κ] [LawfulBEq κ] [BEq α] in
theorem Ascending.lookupEntry_of_lt {key : κ} {head : κ × α} {rest : List (κ × α)}
    (h : Ascending (head :: rest)) (below : compare key head.1 = .lt) :
    lookupEntry key (head :: rest) = none := by
  have ascending : Ascending ((key, head.2) :: head :: rest) := by
    refine List.pairwise_cons.2 ⟨fun entry mem => ?_, h⟩
    rcases List.mem_cons.1 mem with rfl | mem
    · exact below
    · exact Std.TransCmp.lt_trans below ((List.pairwise_cons.1 h).1 entry mem)
  exact ascending.lookupEntry_tail

theorem Ascending.beq_of_rel {entries others : List (κ × α)} (h : Ascending entries)
    (h' : Ascending others)
    (alike : ∀ key,
      Option.Rel (fun a b => a == b) (lookupEntry key entries) (lookupEntry key others)) :
    entries == others := by
  induction entries generalizing others with
  | nil =>
    cases others with
    | nil => rfl
    | cons other others =>
      have first := alike other.1
      rw [lookupEntry_cons, if_pos rfl] at first
      cases first
  | cons entry entries ih =>
    have first := alike entry.1
    rw [lookupEntry_cons, if_pos rfl] at first
    cases others with
    | nil => cases first
    | cons other others =>
      -- the lower of two different first keys would be held by one list only
      have keys : entry.1 = other.1 := by
        cases order : compare entry.1 other.1 with
        | eq => exact Std.LawfulEqOrd.eq_of_compare order
        | lt =>
          rw [h'.lookupEntry_of_lt order] at first
          cases first
        | gt =>
          have second := alike other.1
          rw [lookupEntry_cons other.1 other, if_pos rfl,
            h.lookupEntry_of_lt (Std.OrientedCmp.lt_of_gt order)] at second
          cases second
      have tails : entries == others := by
        refine ih (List.pairwise_cons.1 h).2 (List.pairwise_cons.1 h').2 fun key => ?_
        by_cases here : key = entry.1
        · rw [here, h.lookupEntry_tail, keys, h'.lookupEntry_tail]
          exact .none
        · have later := alike key
          rwa [lookupEntry_cons, lookupEntry_cons, if_neg here, if_neg (keys ▸ here)] at later
      rw [lookupEntry_cons, if_pos keys] at first
      cases first with
      | some values =>
        exact Bool.and_eq_true_iff.2
          ⟨Bool.and_eq_true_iff.2 ⟨beq_iff_eq.2 keys, values⟩, tails⟩

end Entries

/-! ### Maps -/

namespace SortedMap

/-- The maps hold related values under the same keys. -/
def Alike (R : α → α → Prop) (m n : SortedMap κ α) : Prop :=
  ∀ key, Option.Rel R (m.get? key) (n.get? key)

variable [Std.TransOrd κ] {m n : SortedMap κ α}

omit [DecidableEq κ] [Std.LawfulEqOrd κ] [Std.TransOrd κ] in
theorem Alike.imp {R S : α → α → Prop} (alike : m.Alike R n) (implies : ∀ a b, R a b → S a b) :
    m.Alike S n :=
  fun key => rel_imp (alike key) implies

theorem alike_eq : m.Alike Eq n ↔ m = n :=
  ⟨fun alike => ext_get? fun key => rel_eq_iff.1 (alike key),
    fun same _ => rel_eq_iff.2 (same ▸ rfl)⟩

theorem alike_beq [BEq κ] [LawfulBEq κ] [BEq α] :
    m.Alike (fun a b => a == b) n ↔ m == n :=
  ⟨fun alike => m.ascending.beq_of_rel n.ascending alike, rel_lookupEntry_of_beq⟩

omit [DecidableEq κ] [Std.LawfulEqOrd κ] [Std.TransOrd κ] in
theorem Alike.contains_eq {R : α → α → Prop} (alike : m.Alike R n) (key : κ) :
    m.contains key = n.contains key :=
  isSome_eq_of_rel (alike key)

theorem Alike.keys_eq {R : α → α → Prop} (alike : m.Alike R n) : m.keys = n.keys := by
  have same : (m.map fun _ _ => ()) = n.map fun _ _ => () := by
    apply ext_get?
    intro key
    have held := alike.contains_eq key
    rw [contains, contains] at held
    rw [get?_map, get?_map]
    cases here : m.get? key <;> cases there : n.get? key <;> simp [here, there] at held ⊢
  have listed := congrArg keys same
  simpa [keys, Function.comp_def] using listed

end SortedMap

end RevisionGraph
