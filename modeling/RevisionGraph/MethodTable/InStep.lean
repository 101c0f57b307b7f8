import RevisionGraph.MethodTable
import RevisionGraph.Ordered.Lookup

/-!
# Tables in step

`InStep.insert` keeps ids and URIs bound to each other in pairs. By `InStep.ext` two tables of which
that is true are the same if they hold the same methods.
-/

namespace RevisionGraph.MethodTable

theorem inStep_empty : InStep ∅ := by
  intro uri id
  constructor
  · intro held
    cases held
  · rintro ⟨method, held, _⟩
    cases held

/-- Each URI stands under its own id only. -/
theorem InStep.uri_injective {t : MethodTable} (h : t.InStep) {i j : Int64} {m n : Method}
    (left : t.get? i = some m) (right : t.get? j = some n) (same : m.uri = n.uri) : i = j := by
  have bound := (h n.uri i).2 ⟨m, left, same⟩
  rw [(h n.uri j).2 ⟨n, right, rfl⟩] at bound
  exact (Option.some.inj bound).symm

theorem idOf?_release {t : MethodTable} (h : t.InStep) (id : Int64) (uri : Uri) :
    (t.release id).idOf? uri = if t.idOf? uri = some id then none else t.idOf? uri := by
  rw [release]
  split <;> rename_i held
  · rename_i method
    rw [idOf?, SortedMap.get?_erase]
    have bound : t.idOf? method.uri = some id := (h _ _).2 ⟨method, held, rfl⟩
    by_cases same : uri = method.uri
    · rw [if_pos same, if_pos (same ▸ bound)]
    · rw [if_neg same, if_neg]
      · rfl
      · intro other
        obtain ⟨_, held', rfl⟩ := (h _ _).1 other
        cases held.symm.trans held'
        exact same rfl
  · rw [if_neg]
    intro bound
    obtain ⟨_, held', _⟩ := (h _ _).1 bound
    cases held.symm.trans held'

theorem get?_release (t : MethodTable) (id other : Int64) :
    (t.release id).get? other = if other = id then none else t.get? other := by
  rw [release]
  split <;> rename_i held
  · exact SortedMap.get?_erase _ _ _
  · split <;> rename_i same
    · exact same ▸ held
    · rfl

theorem InStep.release {t : MethodTable} (h : t.InStep) (id : Int64) : (t.release id).InStep := by
  intro uri other
  rw [idOf?_release h, get?_release]
  by_cases same : other = id
  · subst same
    simp
  · rw [if_neg same, ← h]
    split <;> rename_i bound
    · simp [bound, Ne.symm same]
    · rfl

theorem get?_bind (t : MethodTable) (id : Int64) (method : Method) (other : Int64) :
    (t.bind id method).get? other = if other = id then some method else t.get? other :=
  SortedMap.get?_insert _ _ _ _

theorem idOf?_bind (t : MethodTable) (id : Int64) (method : Method) (uri : Uri) :
    (t.bind id method).idOf? uri = if uri = method.uri then some id else t.idOf? uri :=
  SortedMap.get?_insert _ _ _ _

theorem InStep.bind {t : MethodTable} (h : t.InStep) {id : Int64} {method : Method}
    (free : t.get? id = none) (unbound : t.idOf? method.uri = none) :
    (t.bind id method).InStep := by
  intro uri other
  rw [idOf?_bind, get?_bind]
  by_cases same : uri = method.uri
  · subst same
    rw [if_pos rfl]
    split <;> rename_i here
    · simp [here]
    · rw [← h, unbound]
      simp [Ne.symm here]
  · rw [if_neg same]
    split <;> rename_i here
    · subst here
      rw [h, free]
      simp [Ne.symm same]
    · rw [h]

theorem insert_of_bound {t : MethodTable} {method : Method} {id : Int64}
    (bound : t.idOf? method.uri = some id) (candidate : Int64) :
    t.insert method candidate = (id, t) := by
  rw [insert, bound]

theorem insert_of_unbound {t : MethodTable} {method : Method}
    (unbound : t.idOf? method.uri = none) (candidate : Int64) :
    t.insert method candidate = (candidate, (t.release candidate).bind candidate method) := by
  rw [insert, unbound]

theorem InStep.insert {t : MethodTable} (h : t.InStep) (method : Method) (candidate : Int64) :
    (t.insert method candidate).2.InStep := by
  cases bound : t.idOf? method.uri with
  | some id => rwa [insert_of_bound bound]
  | none =>
    rw [insert_of_unbound bound]
    refine (h.release candidate).bind ?_ ?_
    · rw [get?_release, if_pos rfl]
    · rw [idOf?_release h, bound]
      rfl

/-- Two tables in step are the same if they hold the same methods. -/
theorem InStep.ext {s t : MethodTable} (left : s.InStep) (right : t.InStep)
    (same : s.byId = t.byId) : s = t := by
  obtain ⟨byId, byUri⟩ := s
  obtain ⟨_, byUri'⟩ := t
  cases same
  have urisAgree : byUri = byUri' := SortedMap.ext_get? fun uri =>
    Option.ext fun id => (left uri id).trans (right uri id).symm
  rw [urisAgree]

end RevisionGraph.MethodTable
