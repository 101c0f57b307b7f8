/-!
# Searching a list of characters

`cut` splits at the first occurrence of a character, `pieces` at every one; `occurs` and
`replaceFirst` look for a whole pattern.
-/

namespace RevisionGraph

/-- What stands before the first `mark`, and what stands after it if there is one. -/
def cut (mark : Char) : List Char → List Char × Option (List Char)
  | [] => ([], none)
  | c :: rest =>
    if c = mark then ([], some rest)
    else
      let (before, after) := cut mark rest
      (c :: before, after)

theorem cut_eq_none_iff {mark : Char} {text before : List Char} :
    cut mark text = (before, none) ↔ before = text ∧ mark ∉ text := by
  induction text generalizing before with
  | nil => simp [cut, eq_comm]
  | cons c rest ih =>
    by_cases h : c = mark
    · simp [cut, h]
    · have step := @ih (cut mark rest).1
      rcases hc : cut mark rest with ⟨front, tail⟩
      rw [hc] at step
      cases before with
      | nil => simp [cut, h, hc]
      | cons b bs =>
        simp only [cut, h, hc, if_false, Prod.mk.injEq, List.cons.injEq, List.mem_cons, not_or]
        constructor
        · rintro ⟨⟨rfl, rfl⟩, rfl⟩
          have := step.1 rfl
          exact ⟨⟨rfl, this.1⟩, fun e => h e.symm, this.2⟩
        · rintro ⟨⟨rfl, rfl⟩, _, free⟩
          have := @ih bs
          rw [hc] at this
          have := this.2 ⟨rfl, free⟩
          simp_all

theorem cut_eq_some_iff {mark : Char} {text before after : List Char} :
    cut mark text = (before, some after) ↔ text = before ++ mark :: after ∧ mark ∉ before := by
  induction text generalizing before with
  | nil => simp [cut]
  | cons c rest ih =>
    by_cases h : c = mark
    · subst h
      cases before with
      | nil => simp [cut, eq_comm]
      | cons b bs =>
        simp only [cut, if_true, Prod.mk.injEq, List.cons_append, List.cons.injEq, List.mem_cons,
          not_or]
        constructor
        · rintro ⟨e, _⟩
          simp at e
        · rintro ⟨⟨rfl, _⟩, e, _⟩
          exact absurd rfl e
    · rcases hc : cut mark rest with ⟨front, tail⟩
      cases before with
      | nil =>
        simp only [cut, h, hc, if_false, Prod.mk.injEq, List.nil_append, List.cons.injEq]
        simp
      | cons b bs =>
        have := @ih bs
        rw [hc] at this
        simp only [Prod.mk.injEq] at this
        simp only [cut, h, hc, if_false, Prod.mk.injEq, List.cons.injEq, List.cons_append,
          List.mem_cons, not_or]
        constructor
        · rintro ⟨⟨rfl, rfl⟩, rfl⟩
          have := this.1 ⟨rfl, rfl⟩
          exact ⟨⟨rfl, this.1⟩, fun e => h e.symm, this.2⟩
        · rintro ⟨⟨rfl, e⟩, _, free⟩
          have := this.2 ⟨e, free⟩
          exact ⟨⟨rfl, this.1⟩, this.2⟩

/-- The pieces between the marks, one more than there are marks. -/
def pieces (mark : Char) (text : List Char) : List (List Char) :=
  text.foldr
    (fun c done =>
      if c = mark then [] :: done
      else
        match done with
        | [] => [[c]]
        | piece :: rest => (c :: piece) :: rest)
    [[]]

def occurs (pattern : List Char) : List Char → Bool
  | [] => pattern.isEmpty
  | c :: rest => pattern.isPrefixOf (c :: rest) || occurs pattern rest

/-- Replaces the first occurrence of `pattern`, if there is one. -/
def replaceFirst (pattern replacement : List Char) : List Char → List Char
  | [] => if pattern.isEmpty then replacement else []
  | c :: rest =>
    if pattern.isPrefixOf (c :: rest) then replacement ++ (c :: rest).drop pattern.length
    else c :: replaceFirst pattern replacement rest

end RevisionGraph
