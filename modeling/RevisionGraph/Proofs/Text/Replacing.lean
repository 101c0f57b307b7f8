import Mathlib.Data.List.Infix
import RevisionGraph.Text.Search

/-!
# Replacing a pattern where it first occurs

`replaceFirst_append_of_not_occurs` and `exists_replaceFirst` say which occurrence is replaced, the
one that is looked at or one before it. The patterns end in a character that they hold nowhere else,
so an occurrence cannot begin before such a character and end behind it.
-/

namespace RevisionGraph

variable {pattern replacement text : List Char}

theorem occurs_iff : occurs pattern text ↔ pattern <:+: text := by
  induction text with
  | nil => rw [occurs, List.isEmpty_iff, List.infix_nil]
  | cons c rest ih =>
    rw [occurs, Bool.or_eq_true, List.isPrefixOf_iff_prefix, ih, List.infix_cons_iff]

theorem replaceFirst_cons_of_begins {c : Char} {rest : List Char} (here : pattern <+: c :: rest) :
    replaceFirst pattern replacement (c :: rest) =
      replacement ++ (c :: rest).drop pattern.length := by
  rw [replaceFirst, if_pos (List.isPrefixOf_iff_prefix.2 here)]

theorem replaceFirst_cons_of_not_begins {c : Char} {rest : List Char}
    (notHere : ¬ pattern <+: c :: rest) :
    replaceFirst pattern replacement (c :: rest) = c :: replaceFirst pattern replacement rest := by
  rw [replaceFirst, if_neg (mt List.isPrefixOf_iff_prefix.1 notHere)]

theorem replaceFirst_append_self (pattern replacement rest : List Char) :
    replaceFirst pattern replacement (pattern ++ rest) = replacement ++ rest := by
  cases whole : pattern ++ rest with
  | nil =>
    obtain ⟨rfl, rfl⟩ := List.append_eq_nil_iff.1 whole
    simp [replaceFirst]
  | cons c tail =>
    have here : pattern <+: c :: tail := whole ▸ List.prefix_append pattern rest
    rw [replaceFirst_cons_of_begins here, ← whole, List.drop_left]

theorem replaceFirst_self (pattern text : List Char) :
    replaceFirst pattern pattern text = text := by
  induction text with
  | nil => simp [replaceFirst]
  | cons c rest ih =>
    by_cases here : pattern <+: c :: rest
    · rw [replaceFirst_cons_of_begins here]
      exact List.prefix_iff_eq_append.1 here
    · rw [replaceFirst_cons_of_not_begins here, ih]

/-- What follows the first occurrence of a pattern does not matter. -/
theorem exists_replaceFirst {front : List Char} (found : occurs pattern front) :
    ∃ before after, front = before ++ pattern ++ after ∧
      ∀ replacement rest, replaceFirst pattern replacement (front ++ rest) =
        before ++ replacement ++ after ++ rest := by
  induction front with
  | nil =>
    obtain rfl : pattern = [] := List.isEmpty_iff.1 found
    refine ⟨[], [], rfl, fun replacement rest => ?_⟩
    simpa using replaceFirst_append_self [] replacement rest
  | cons c front ih =>
    by_cases here : pattern <+: c :: front
    · obtain ⟨after, same⟩ := here
      refine ⟨[], after, same.symm, fun replacement rest => ?_⟩
      rw [← same, List.append_assoc, replaceFirst_append_self, List.nil_append, List.append_assoc]
    · have later : pattern <:+: front :=
        (List.infix_cons_iff.1 (occurs_iff.1 found)).resolve_left here
      obtain ⟨before, after, rfl, replaced⟩ := ih (occurs_iff.2 later)
      refine ⟨c :: before, after, rfl, fun replacement rest => ?_⟩
      -- an occurrence here would end before the one that is found
      have stillNot : ¬ pattern <+: c :: (before ++ pattern ++ after ++ rest) := fun earlier =>
        here <| List.prefix_of_prefix_length_le earlier (List.prefix_append _ rest)
          (later.length_le.trans (Nat.le_succ _))
      rw [List.cons_append, replaceFirst_cons_of_not_begins stillNot, replaced]
      simp

/-! ### Patterns with an end mark -/

variable {mark : Char} {body : List Char}

theorem append_cons_inj {before before' after after' : List Char} (first : mark ∉ before)
    (first' : mark ∉ before') (same : before ++ mark :: after = before' ++ mark :: after') :
    before = before' ∧ after = after' := by
  have halves := cut_eq_some_iff.2 ⟨same, first'⟩
  rw [cut_eq_some_iff.2 ⟨rfl, first⟩] at halves
  simpa using halves

/-- A pattern with an end mark occurs no later than the last mark. -/
theorem infix_append_iff_of_not_mem {front rest : List Char} (unmarked : mark ∉ rest) :
    body ++ [mark] <:+: front ++ rest ↔ body ++ [mark] <:+: front := by
  induction rest using List.reverseRecOn with
  | nil => rw [List.append_nil]
  | append_singleton rest c ih =>
    rw [List.mem_append, List.mem_singleton, not_or] at unmarked
    rw [← List.append_assoc, List.infix_concat_iff, ih unmarked.1, or_iff_right]
    intro last
    obtain ⟨start, same⟩ := last
    rw [← List.append_assoc] at same
    exact unmarked.2 (List.cons.inj (List.append_inj_right' same rfl)).1

/-- A pattern with an end mark is replaced behind a text in which it does not occur. -/
theorem replaceFirst_append_of_not_occurs {front : List Char} (whole : mark ∉ body)
    (absent : ¬ occurs (body ++ [mark]) front) (replacement rest : List Char) :
    replaceFirst (body ++ [mark]) replacement (front ++ (body ++ [mark]) ++ rest) =
      front ++ replacement ++ rest := by
  rw [occurs_iff] at absent
  induction front with
  | nil =>
    rw [List.nil_append, List.nil_append]
    exact replaceFirst_append_self _ replacement rest
  | cons c front ih =>
    have notLater : ¬ body ++ [mark] <:+: front := mt List.infix_cons absent
    have notHere : ¬ body ++ [mark] <+: c :: (front ++ (body ++ [mark]) ++ rest) := by
      intro here
      have within : body ++ [mark] <+: c :: front ++ body := by
        refine List.prefix_of_prefix_length_le here ⟨mark :: rest, by simp⟩ ?_
        simp
      exact absent ((infix_append_iff_of_not_mem whole).1 within.isInfix)
    rw [List.cons_append, List.cons_append, replaceFirst_cons_of_not_begins notHere, ih notLater]
    rfl

/-- The occurrence behind a text is the one that is replaced if there is none in the text, or if
nothing changes anyway. -/
theorem replaceFirst_append_eq_iff {body' front rest : List Char} (whole : mark ∉ body)
    (whole' : mark ∉ body') :
    replaceFirst (body ++ [mark]) (body' ++ [mark]) (front ++ (body ++ [mark]) ++ rest) =
        front ++ (body' ++ [mark]) ++ rest ↔
      body' = body ∨ ¬ occurs (body ++ [mark]) front := by
  constructor
  · intro same
    rw [or_iff_not_imp_right, not_not]
    intro found
    obtain ⟨before, after, rfl, replaced⟩ := exists_replaceFirst found
    rw [List.append_assoc _ _ rest, replaced] at same
    simp only [List.append_assoc, List.append_cancel_left_eq, List.singleton_append] at same
    exact (append_cons_inj whole' whole same).1
  · rintro (rfl | absent)
    · exact replaceFirst_self _ _
    · exact replaceFirst_append_of_not_occurs whole absent _ rest

end RevisionGraph
