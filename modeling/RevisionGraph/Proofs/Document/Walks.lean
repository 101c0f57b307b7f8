import Mathlib.Data.List.Forall2

/-!
# Walks that may fail

A walk over a list gives a result if each of its steps does.
-/

namespace RevisionGraph

variable {ε α β γ : Type}

theorem bind_eq_ok_iff {x : Except ε α} {f : α → Except ε β} {value : β} :
    (x >>= f) = .ok value ↔ ∃ between, x = .ok between ∧ f between = .ok value := by
  cases x <;> simp [bind, Except.bind]

theorem exists_eq_ok_of_isOk {x : Except ε α} (ok : x.isOk) : ∃ value, x = .ok value := by
  cases x with
  | error => cases ok
  | ok value => exact ⟨value, rfl⟩

theorem ok_bind (value : α) (f : α → Except ε β) : (Except.ok value >>= f) = f value := rfl

theorem toOption_eq_some_iff {result : Except ε α} {value : α} :
    result.toOption = some value ↔ result = .ok value := by
  cases result <;> simp [Except.toOption]

theorem mapM_eq_ok_iff {f : α → Except ε β} {items : List α} {results : List β} :
    items.mapM f = .ok results ↔
      List.Forall₂ (fun item result => f item = .ok result) items results := by
  induction items generalizing results with
  | nil => simp [pure, Except.pure, eq_comm]
  | cons item items ih =>
    rw [List.mapM_cons, bind_eq_ok_iff, List.forall₂_cons_left_iff]
    constructor
    · rintro ⟨result, first, rest⟩
      obtain ⟨results', walked, made⟩ := bind_eq_ok_iff.1 rest
      cases made
      exact ⟨result, results', first, ih.1 walked, rfl⟩
    · rintro ⟨result, results', first, walked, rfl⟩
      exact ⟨result, first, bind_eq_ok_iff.2 ⟨results', ih.2 walked, rfl⟩⟩

theorem exists_mem_of_forall₂ {R : α → β → Prop} {items : List α} {results : List β}
    (each : List.Forall₂ R items results) {result : β} (mem : result ∈ results) :
    ∃ item ∈ items, R item result := by
  induction each with
  | nil => cases mem
  | cons first _ ih =>
    rcases List.mem_cons.1 mem with rfl | mem
    · exact ⟨_, List.mem_cons_self, first⟩
    · obtain ⟨item, mem, related⟩ := ih mem
      exact ⟨item, List.mem_cons_of_mem _ mem, related⟩

theorem perm_flatMap_of_forall₂ {R : α → β → Prop} {f : α → List γ} {g : β → List γ}
    (each : ∀ item result, R item result → (f item).Perm (g result)) {items : List α}
    {results : List β} (all : List.Forall₂ R items results) :
    (items.flatMap f).Perm (results.flatMap g) := by
  induction all with
  | nil => exact .nil
  | cons first _ ih =>
    rw [List.flatMap_cons, List.flatMap_cons]
    exact (each _ _ first).append ih

theorem mem_of_mapM_eq_ok {f : α → Except ε β} {items : List α} {results : List β}
    (walked : items.mapM f = .ok results) {result : β} (mem : result ∈ results) :
    ∃ item ∈ items, f item = .ok result :=
  exists_mem_of_forall₂ (mapM_eq_ok_iff.1 walked) mem

theorem mapM_map_eq_ok {f : α → Except ε β} {g : γ → α} {k : γ → β} {items : List γ}
    (reads : ∀ item ∈ items, f (g item) = .ok (k item)) :
    (items.map g).mapM f = .ok (items.map k) := by
  induction items with
  | nil => rfl
  | cons item items ih =>
    rw [List.map_cons, List.mapM_cons, reads item List.mem_cons_self,
      ih fun item mem => reads item (List.mem_cons_of_mem _ mem)]
    rfl

/-- What holds at the start of a walk and is kept by its steps holds at its end. -/
theorem foldlM_invariant {P : β → Prop} {f : β → α → Except ε β} {items : List α}
    (kept : ∀ item ∈ items, ∀ before after, f before item = .ok after → P before → P after)
    {start stop : β} (initially : P start) (walked : items.foldlM f start = .ok stop) : P stop := by
  induction items generalizing start with
  | nil =>
    cases walked
    exact initially
  | cons item items ih =>
    rw [List.foldlM_cons] at walked
    obtain ⟨between, first, rest⟩ := bind_eq_ok_iff.1 walked
    have next := kept item List.mem_cons_self start between first initially
    exact ih (fun item mem => kept item (List.mem_cons_of_mem _ mem)) next rest

/-- What commutes with the steps of a walk commutes with the walk. -/
theorem foldlM_hom {f : β → α → Except ε β} {k : β → β}
    (steps : ∀ before item, f (k before) item = k <$> f before item) (items : List α) (start : β) :
    items.foldlM f (k start) = k <$> items.foldlM f start := by
  induction items generalizing start with
  | nil => rfl
  | cons item items ih =>
    rw [List.foldlM_cons, List.foldlM_cons, steps, bind_map_left, map_bind]
    exact bind_congr ih

/-- Related lists agree on what related items have in common. -/
theorem map_eq_map_of_forall₂ {R : α → β → Prop} {f : α → γ} {g : β → γ}
    (same : ∀ item result, R item result → f item = g result) {items : List α} {results : List β}
    (each : List.Forall₂ R items results) : items.map f = results.map g := by
  rw [← List.forall₂_eq_eq_eq, List.forall₂_map_left_iff, List.forall₂_map_right_iff]
  exact each.imp same

/-! ### Whether a walk gives a result -/

/-- What is computed from the result of a step does not make it fail. -/
theorem exists_bind_pure_iff {x : Except ε α} {g : α → β} :
    (∃ value, (x >>= fun between => pure (g between)) = .ok value) ↔
      ∃ between, x = .ok between := by
  cases x with
  | error failure => simp [bind, Except.bind]
  | ok between => exact iff_of_true ⟨g between, rfl⟩ ⟨between, rfl⟩

theorem exists_forall₂_iff {R : α → β → Prop} {items : List α} :
    (∃ results, List.Forall₂ R items results) ↔ ∀ item ∈ items, ∃ result, R item result := by
  induction items with
  | nil => simp
  | cons item items ih =>
    rw [List.forall_mem_cons, ← ih]
    constructor
    · rintro ⟨_, first | ⟨first, rest⟩⟩
      exact ⟨⟨_, first⟩, _, rest⟩
    · rintro ⟨⟨_, first⟩, _, rest⟩
      exact ⟨_, .cons first rest⟩

theorem exists_mapM_eq_ok_iff {f : α → Except ε β} {items : List α} :
    (∃ results, items.mapM f = .ok results) ↔ ∀ item ∈ items, ∃ result, f item = .ok result := by
  simp only [mapM_eq_ok_iff, exists_forall₂_iff]

/-- A walk whose steps look at their items alone gives a result if all items do. -/
theorem exists_foldlM_eq_ok_iff {P : α → Prop} {f : β → α → Except ε β}
    (accepts : ∀ before item, (∃ after, f before item = .ok after) ↔ P item) {items : List α}
    {start : β} : (∃ stop, items.foldlM f start = .ok stop) ↔ ∀ item ∈ items, P item := by
  induction items generalizing start with
  | nil => exact iff_of_true ⟨start, rfl⟩ fun _ mem => by cases mem
  | cons item items ih =>
    simp only [List.foldlM_cons, bind_eq_ok_iff, List.forall_mem_cons, ← accepts start item]
    constructor
    · rintro ⟨stop, between, first, rest⟩
      exact ⟨⟨between, first⟩, ih.1 ⟨stop, rest⟩⟩
    · rintro ⟨⟨between, first⟩, rest⟩
      obtain ⟨stop, rest⟩ := ih.2 rest
      exact ⟨stop, between, first, rest⟩

/-! ### Walks that stop at a changed item -/

variable {error : ε}

/-- What comes before the first difference goes well again. -/
theorem bind_eq_error_of_ok {x : Except ε α} {f g : α → Except ε β} {value : β}
    (ok : (x >>= f) = .ok value)
    (fails : ∀ between, f between = .ok value → g between = .error error) :
    (x >>= g) = .error error := by
  obtain ⟨between, first, rest⟩ := bind_eq_ok_iff.1 ok
  rw [first, ok_bind, fails between rest]

theorem foldlM_eq_error_of_ok {f : β → α → Except ε β} {before after : List α} {item item' : α}
    {start stop : β} (ok : (before ++ item :: after).foldlM f start = .ok stop)
    (fails : ∀ reached next, f reached item = .ok next → f reached item' = .error error) :
    (before ++ item' :: after).foldlM f start = .error error := by
  rw [List.foldlM_append] at ok ⊢
  refine bind_eq_error_of_ok ok fun reached ok => ?_
  rw [List.foldlM_cons] at ok ⊢
  obtain ⟨next, first, _⟩ := bind_eq_ok_iff.1 ok
  rw [fails reached next first]
  rfl

theorem mapM_eq_error_of_ok {f : α → Except ε β} {before after : List α} {item item' : α}
    {results : List β} (ok : (before ++ item :: after).mapM f = .ok results)
    (fails : ∀ result, f item = .ok result → f item' = .error error) :
    (before ++ item' :: after).mapM f = .error error := by
  rw [List.mapM_append] at ok ⊢
  refine bind_eq_error_of_ok ok fun _ ok => ?_
  rw [List.mapM_cons] at ok ⊢
  obtain ⟨between, ok, _⟩ := bind_eq_ok_iff.1 ok
  obtain ⟨result, first, _⟩ := bind_eq_ok_iff.1 ok
  rw [fails result first]
  rfl

end RevisionGraph
