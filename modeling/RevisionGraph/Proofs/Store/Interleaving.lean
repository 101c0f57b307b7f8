import Mathlib.Logic.Relation
import RevisionGraph.Proofs.Store.Agreement

/-!
# Calls at the same time

A call takes its actions one after the other, and actions of other calls may come in between. Calls
with different keys do not disturb each other: what they leave is what they leave one after the
other, in the order in which they started (`MemoryStore.store_of_apart`). Calls with one key may
leave the text of one revision beside the summary of another (`MemoryStore.not_consistent_of_idle`),
but never a text without a summary (`MemoryStore.listed_of_idle`).
-/

namespace RevisionGraph

namespace MemoryStore

open RevisionStore

/-! ### Actions -/

namespace Action

def key : Action → String
  | .setText key _ | .setSummary key _ | .dropText key | .dropSummary key => key

/-- The text under a key, as far as the action decides about it. -/
def text? (key : String) : Action → Option (Option String)
  | .setText changed text => if key = changed then some (some text) else none
  | .dropText changed => if key = changed then some none else none
  | .setSummary .. | .dropSummary _ => none

/-- The summary under a key, as far as the action decides about it. -/
def summary? (key : String) : Action → Option (Option Summary)
  | .setSummary changed summary => if key = changed then some (some summary) else none
  | .dropSummary changed => if key = changed then some none else none
  | .setText .. | .dropText _ => none

theorem text?_of_ne {a : Action} {key : String} (apart : key ≠ a.key) : a.text? key = none := by
  cases a <;> simp_all [Action.key, text?]

theorem summary?_of_ne {a : Action} {key : String} (apart : key ≠ a.key) :
    a.summary? key = none := by
  cases a <;> simp_all [Action.key, summary?]

end Action

variable {s : MemoryStore}

theorem get?_texts_act (s : MemoryStore) (a : Action) (key : String) :
    (s.act a).texts.get? key = (a.text? key).getD (s.texts.get? key) := by
  cases a with
  | setText changed text =>
    refine (SortedMap.get?_insert s.texts changed text key).trans ?_
    simp only [Action.text?]
    split <;> rfl
  | dropText changed =>
    refine (SortedMap.get?_erase s.texts changed key).trans ?_
    simp only [Action.text?]
    split <;> rfl
  | setSummary | dropSummary => rfl

theorem get?_summaries_act (s : MemoryStore) (a : Action) (key : String) :
    (s.act a).summaries.get? key = (a.summary? key).getD (s.summaries.get? key) := by
  cases a with
  | setSummary changed summary =>
    refine (SortedMap.get?_insert s.summaries changed summary key).trans ?_
    simp only [Action.summary?]
    split <;> rfl
  | dropSummary changed =>
    refine (SortedMap.get?_erase s.summaries changed key).trans ?_
    simp only [Action.summary?]
    split <;> rfl
  | setText | dropText => rfl

theorem ext_get? {s t : MemoryStore} (texts : ∀ key, s.texts.get? key = t.texts.get? key)
    (summaries : ∀ key, s.summaries.get? key = t.summaries.get? key) : s = t := by
  obtain ⟨sTexts, sSummaries⟩ := s
  obtain ⟨tTexts, tSummaries⟩ := t
  have sameTexts : sTexts = tTexts := SortedMap.ext_get? texts
  have sameSummaries : sSummaries = tSummaries := SortedMap.ext_get? summaries
  rw [sameTexts, sameSummaries]

theorem act_comm (s : MemoryStore) {a b : Action} (apart : a.key ≠ b.key) :
    (s.act a).act b = (s.act b).act a := by
  apply ext_get?
  · intro key
    simp only [get?_texts_act]
    by_cases here : key = a.key
    · rw [Action.text?_of_ne (a := b) (here ▸ apart)]
      rfl
    · rw [Action.text?_of_ne here]
      rfl
  · intro key
    simp only [get?_summaries_act]
    by_cases here : key = a.key
    · rw [Action.summary?_of_ne (a := b) (here ▸ apart)]
      rfl
    · rw [Action.summary?_of_ne here]
      rfl

/-- An action may be taken before others that have another key. -/
theorem foldl_act_comm (s : MemoryStore) {a : Action} {others : List Action}
    (apart : ∀ b ∈ others, b.key ≠ a.key) :
    (others.foldl act s).act a = others.foldl act (s.act a) := by
  induction others generalizing s with
  | nil => rfl
  | cons b others ih =>
    obtain ⟨first, rest⟩ := List.forall_mem_cons.1 apart
    rw [List.foldl_cons, List.foldl_cons, ih _ rest, act_comm s first]

/-! ### Calls in progress -/

/-- What an operation does to a store, one action after the other. -/
def actions : Operation → List Action
  | .put r => putActions r
  | .remove key => removeActions key
  | .get _ | .list => []

theorem perform_eq (s : MemoryStore) (op : Operation) :
    (perform s op).2 = (actions op).foldl act s := by
  cases op <;> rfl

/-- A store with the calls that are in progress. -/
structure Traffic where
  store : MemoryStore
  /-- What is left to do for each call that has not ended, the first that started first. -/
  running : List (List Action)
  /-- All calls so far, in the order in which they started. -/
  started : List Operation

namespace Traffic

/-- A new store, before any call. -/
def new : Traffic := ⟨∅, [], []⟩

inductive Step : Traffic → Traffic → Prop
  | start (s : MemoryStore) (running : List (List Action)) (started : List Operation)
      (op : Operation) : Step ⟨s, running, started⟩ ⟨s, running ++ [actions op], started ++ [op]⟩
  | act (s : MemoryStore) (before after : List (List Action)) (a : Action) (left : List Action)
      (started : List Operation) :
      Step ⟨s, before ++ (a :: left) :: after, started⟩
        ⟨s.act a, before ++ left :: after, started⟩
  | finish (s : MemoryStore) (before after : List (List Action)) (started : List Operation) :
      Step ⟨s, before ++ [] :: after, started⟩ ⟨s, before ++ after, started⟩

/-- No two calls have actions left with one key. -/
def Apart (t : Traffic) : Prop :=
  t.running.Pairwise fun left others => ∀ a ∈ left, ∀ b ∈ others, a.key ≠ b.key

/-- The store after all calls in progress, each without a break. -/
def settled (t : Traffic) : MemoryStore := t.running.flatten.foldl MemoryStore.act t.store

/-- What is settled changes as a call starts only. -/
theorem settled_step {t u : Traffic} (apart : t.Apart) (step : Step t u) :
    ∃ new, u.started = t.started ++ new ∧ u.settled = performAll t.settled new := by
  cases step with
  | start s running started op =>
    refine ⟨[op], rfl, ?_⟩
    simp only [settled, List.flatten_append, List.foldl_append, List.flatten_singleton]
    exact (perform_eq _ op).symm
  | act s before after a left started =>
    refine ⟨[], (List.append_nil _).symm, ?_⟩
    have others : ∀ b ∈ before.flatten, b.key ≠ a.key := by
      intro b mem
      obtain ⟨actions, memBefore, mem⟩ := List.mem_flatten.1 mem
      obtain ⟨_, _, between⟩ := List.pairwise_append.1 apart
      exact between actions memBefore (a :: left) List.mem_cons_self b mem a List.mem_cons_self
    simp only [settled, List.flatten_append, List.flatten_cons, List.foldl_append, List.foldl_cons,
      ← foldl_act_comm _ others]
    rfl
  | finish s before after started =>
    refine ⟨[], (List.append_nil _).symm, ?_⟩
    simp only [settled, List.flatten_append, List.flatten_cons, List.nil_append]
    rfl

def Reachable (t : Traffic) : Prop := Relation.ReflTransGen Step new t

/-- The traffic is reached with calls that keep apart all the way. -/
def ReachableApart (t : Traffic) : Prop :=
  Relation.ReflTransGen (fun t u => Step t u ∧ u.Apart) new t

variable {t u : Traffic}

theorem settled_of_reachableApart (reached : t.ReachableApart) :
    t.Apart ∧ t.settled = performAll ∅ t.started := by
  induction reached with
  | refl => exact ⟨.nil, rfl⟩
  | tail _ next ih =>
    obtain ⟨step, apart⟩ := next
    obtain ⟨new, started, settled⟩ := settled_step ih.1 step
    refine ⟨apart, ?_⟩
    rw [settled, started, ih.2]
    exact (List.foldl_append ..).symm

/-- Calls with different keys leave what they leave one after the other. -/
theorem store_of_apart (reached : t.ReachableApart) (idle : t.running = []) :
    t.store = performAll ∅ t.started := by
  have settled := (settled_of_reachableApart reached).2
  unfold Traffic.settled at settled
  rwa [idle] at settled

end Traffic

/-! ### Texts and their summaries -/

/-- The same keys have texts and summaries, and the summary is that of the revision that is got. -/
structure Consistent (s : MemoryStore) : Prop where
  keys : ∀ key, s.texts.contains key = s.summaries.contains key
  summaries : ∀ key r, get? s key = .ok (some r) →
    s.summaries.get? key = some (.ofRevision r)

theorem Mirrors.consistent {m : RevisionMap} (mirrors : s.Mirrors m) : s.Consistent := by
  have read := mirrors.sound.readStored_written
  have got (key : String) : get? s key = .ok (m.get? key) := by
    rw [← read key, ← mirrors.texts]
    rfl
  constructor
  · intro key
    rw [mirrors.texts, mirrors.summaries, m.contains_written, m.contains_written]
  · intro key r found
    have held : m.get? key = some r := Except.ok.inj ((got key).symm.trans found)
    rw [mirrors.summaries, RevisionMap.written, SortedMap.get?_map, held]
    rfl

theorem consistent_performAll {ops : List Operation} (reads : ∀ r, .put r ∈ ops → r.ReadsBack) :
    (performAll (∅ : MemoryStore) ops).Consistent := by
  have step (op : Operation) (mem : op ∈ ops) : Simulates Mirrors op :=
    simulates fun r put => reads r (put ▸ mem)
  have mirrors := performAll_related step mirrors_empty
  exact mirrors.consistent

/-! ### Calls with one key -/

namespace Action

/-- After the action the key has a text only if it has a summary. -/
def Settles (key : String) : Action → Prop
  | .setSummary changed _ | .dropText changed => changed = key
  | .setText .. | .dropSummary _ => False

theorem Settles.listed {a : Action} {key : String} (settles : a.Settles key)
    (held : (s.act a).texts.contains key) : (s.act a).summaries.contains key := by
  rw [SortedMap.contains] at held ⊢
  cases a with
  | setSummary changed summary =>
    rw [get?_summaries_act, summary?, if_pos settles.symm]
    rfl
  | dropText changed =>
    rw [get?_texts_act, text?, if_pos settles.symm] at held
    cases held
  | setText | dropSummary => exact settles.elim

end Action

/-- Of the two actions of an operation the last settles its key. -/
theorem settles_of_suffix {op : Operation} {a : Action} {left : List Action}
    (tail : a :: left <:+ actions op) (key : String) :
    a.Settles key ∨ (∃ b ∈ left, b.Settles key) ∨
      a.text? key = none ∧ a.summary? key = none ∧ ¬ a.Settles key := by
  by_cases here : key = a.key
  · cases op with
    | put r =>
      simp only [actions, putActions, List.suffix_cons_iff, List.cons.injEq] at tail
      rcases tail with ⟨rfl, rfl⟩ | ⟨rfl, rfl⟩ | none
      · exact .inr (.inl ⟨_, List.mem_singleton_self _, here.symm⟩)
      · exact .inl here.symm
      · simp at none
    | remove removed =>
      simp only [actions, removeActions, List.suffix_cons_iff, List.cons.injEq] at tail
      rcases tail with ⟨rfl, rfl⟩ | ⟨rfl, rfl⟩ | none
      · exact .inr (.inl ⟨_, List.mem_singleton_self _, here.symm⟩)
      · exact .inl here.symm
      · simp at none
    | get | list => simp [actions] at tail
  · refine .inr (.inr ⟨Action.text?_of_ne here, Action.summary?_of_ne here, ?_⟩)
    intro settles
    cases a with
    | setSummary | dropText => exact here settles.symm
    | setText | dropSummary => exact settles

theorem put_of_text? {op : Operation} {a : Action} (mem : a ∈ actions op) {key text : String}
    (told : a.text? key = some (some text)) :
    ∃ r, op = .put r ∧ storeKey r = key ∧ r.compact = text := by
  cases op with
  | put r =>
    simp only [actions, putActions, List.mem_cons, List.not_mem_nil, or_false] at mem
    rcases mem with rfl | rfl
    · simp only [Action.text?, Option.ite_none_right_eq_some, Option.some.injEq] at told
      exact ⟨r, rfl, told.1.symm, told.2⟩
    · cases told
  | remove removed =>
    simp only [actions, removeActions, List.mem_cons, List.not_mem_nil, or_false] at mem
    rcases mem with rfl | rfl <;> simp [Action.text?] at told
  | get | list => cases mem

theorem put_of_summary? {op : Operation} {a : Action} (mem : a ∈ actions op) {key : String}
    {summary : Summary} (told : a.summary? key = some (some summary)) :
    ∃ r, op = .put r ∧ storeKey r = key ∧ .ofRevision r = summary := by
  cases op with
  | put r =>
    simp only [actions, putActions, List.mem_cons, List.not_mem_nil, or_false] at mem
    rcases mem with rfl | rfl
    · cases told
    · simp only [Action.summary?, Option.ite_none_right_eq_some, Option.some.injEq] at told
      exact ⟨r, rfl, told.1.symm, told.2⟩
  | remove removed =>
    simp only [actions, removeActions, List.mem_cons, List.not_mem_nil, or_false] at mem
    rcases mem with rfl | rfl <;> simp [Action.summary?] at told
  | get | list => cases mem

namespace Traffic

/-- Some call is going to take an action that settles the key. -/
def Awaits (t : Traffic) (key : String) : Prop :=
  ∃ left ∈ t.running, ∃ a ∈ left, a.Settles key

/-- Every call has the last of its actions left, what is stored was put in, and a key has a text
only if it has a summary or is going to be settled. -/
structure Orderly (t : Traffic) : Prop where
  tails : ∀ left ∈ t.running, ∃ op ∈ t.started, left <:+ actions op
  texts : ∀ key text, t.store.texts.get? key = some text →
    ∃ r, .put r ∈ t.started ∧ storeKey r = key ∧ r.compact = text
  summaries : ∀ key summary, t.store.summaries.get? key = some summary →
    ∃ r, .put r ∈ t.started ∧ storeKey r = key ∧ .ofRevision r = summary
  listed : ∀ key, t.store.texts.contains key → t.store.summaries.contains key ∨ t.Awaits key

theorem orderly_new : new.Orderly where
  tails _ mem := by cases mem
  texts _ _ held := by cases held
  summaries _ _ held := by cases held
  listed _ held := by cases held

variable {t u : Traffic}

theorem Orderly.start {store : MemoryStore} {running : List (List Action)}
    {started : List Operation} (orderly : Orderly ⟨store, running, started⟩) (op : Operation) :
    Orderly ⟨store, running ++ [actions op], started ++ [op]⟩ := by
  have before {op' : Operation} (mem : op' ∈ started) : op' ∈ started ++ [op] :=
    List.mem_append_left _ mem
  constructor
  · intro left mem
    rcases List.mem_append.1 mem with mem | mem
    · obtain ⟨op', mem, tail⟩ := orderly.tails left mem
      exact ⟨op', before mem, tail⟩
    · obtain rfl := List.mem_singleton.1 mem
      exact ⟨op, List.mem_append_right _ (List.mem_singleton_self op), List.suffix_refl _⟩
  · intro key text held
    obtain ⟨r, put, rest⟩ := orderly.texts key text held
    exact ⟨r, before put, rest⟩
  · intro key summary held
    obtain ⟨r, put, rest⟩ := orderly.summaries key summary held
    exact ⟨r, before put, rest⟩
  · intro key held
    refine (orderly.listed key held).imp id ?_
    rintro ⟨left, mem, awaited⟩
    exact ⟨left, List.mem_append_left _ mem, awaited⟩

theorem Orderly.finish {store : MemoryStore} {before after : List (List Action)}
    {started : List Operation} (orderly : Orderly ⟨store, before ++ [] :: after, started⟩) :
    Orderly ⟨store, before ++ after, started⟩ := by
  refine ⟨fun left mem => orderly.tails left ?_, orderly.texts, orderly.summaries, ?_⟩
  · rcases List.mem_append.1 mem with mem | mem
    · exact List.mem_append_left _ mem
    · exact List.mem_append_right _ (List.mem_cons_of_mem _ mem)
  · intro key held
    refine (orderly.listed key held).imp id ?_
    rintro ⟨left, mem, a, action, settles⟩
    rcases List.mem_append.1 mem with mem | mem
    · exact ⟨left, List.mem_append_left _ mem, a, action, settles⟩
    · rcases List.mem_cons.1 mem with rfl | mem
      · cases action
      · exact ⟨left, List.mem_append_right _ mem, a, action, settles⟩

theorem Awaits.act {store : MemoryStore} {before after : List (List Action)} {a : Action}
    {left : List Action} {started : List Operation} {key : String}
    (awaits : Awaits ⟨store, before ++ (a :: left) :: after, started⟩ key)
    (other : ¬ a.Settles key) : Awaits ⟨store.act a, before ++ left :: after, started⟩ key := by
  obtain ⟨actions, mem, b, action, settles⟩ := awaits
  simp only [List.mem_append, List.mem_cons] at mem
  rcases mem with mem | rfl | mem
  · exact ⟨actions, by simp [mem], b, action, settles⟩
  · rcases List.mem_cons.1 action with rfl | action
    · exact absurd settles other
    · exact ⟨left, by simp, b, action, settles⟩
  · exact ⟨actions, by simp [mem], b, action, settles⟩

theorem Orderly.act {store : MemoryStore} {before after : List (List Action)} {a : Action}
    {left : List Action} {started : List Operation}
    (orderly : Orderly ⟨store, before ++ (a :: left) :: after, started⟩) :
    Orderly ⟨store.act a, before ++ left :: after, started⟩ := by
  obtain ⟨op, begun, tail⟩ := orderly.tails (a :: left) (by simp)
  have action : a ∈ actions op := tail.subset List.mem_cons_self
  constructor
  · intro other mem
    simp only [List.mem_append, List.mem_cons] at mem
    rcases mem with mem | rfl | mem
    · exact orderly.tails other (by simp [mem])
    · exact ⟨op, begun, (List.suffix_cons a other).trans tail⟩
    · exact orderly.tails other (by simp [mem])
  · intro key text held
    rw [get?_texts_act] at held
    cases told : a.text? key with
    | none => exact orderly.texts key text (by rwa [told] at held)
    | some decided =>
      rw [told] at held
      obtain ⟨r, rfl, put⟩ := put_of_text? action (told.trans (congrArg some held))
      exact ⟨r, begun, put⟩
  · intro key summary held
    rw [get?_summaries_act] at held
    cases told : a.summary? key with
    | none => exact orderly.summaries key summary (by rwa [told] at held)
    | some decided =>
      rw [told] at held
      obtain ⟨r, rfl, put⟩ := put_of_summary? action (told.trans (congrArg some held))
      exact ⟨r, begun, put⟩
  · intro key held
    rcases settles_of_suffix tail key with settles | ⟨b, mem, settles⟩ | ⟨text, summary, other⟩
    · exact .inl (settles.listed held)
    · exact .inr ⟨left, by simp, b, mem, settles⟩
    · -- the action is about another key
      rw [SortedMap.contains, get?_texts_act, text] at held
      refine (orderly.listed key held).imp (fun listed => ?_) fun awaits => awaits.act other
      rw [SortedMap.contains, get?_summaries_act, summary]
      exact listed

theorem Orderly.step (orderly : t.Orderly) (step : Step t u) : u.Orderly := by
  cases step with
  | start s running started op => exact orderly.start op
  | act s before after a left started => exact orderly.act
  | finish s before after started => exact orderly.finish

theorem orderly_of_reachable (reached : t.Reachable) : t.Orderly := by
  induction reached with
  | refl => exact orderly_new
  | tail _ step ih => exact ih.step step

/-- Whatever calls come at the same time, what has a text is listed when they have ended. -/
theorem listed_of_idle (reached : t.Reachable) (idle : t.running = []) {key : String}
    (held : t.store.texts.contains key) : t.store.summaries.contains key := by
  rcases (orderly_of_reachable reached).listed key held with listed | ⟨left, mem, _⟩
  · exact listed
  · rw [idle] at mem
    cases mem

/-- When no call is in progress, everything stored was put in by some call, and what has a text is
listed. If calls with one key never were in progress at the same time, the store is what the calls
leave one after the other, and so it is consistent. -/
theorem store_of_idle (idle : t.running = []) :
    (t.Reachable → t.Orderly ∧
      ∀ key, t.store.texts.contains key → t.store.summaries.contains key) ∧
    (t.ReachableApart → t.store = performAll ∅ t.started ∧
      ((∀ r, .put r ∈ t.started → r.ReadsBack) → t.store.Consistent)) := by
  constructor
  · intro reached
    exact ⟨orderly_of_reachable reached, fun key held => listed_of_idle reached idle held⟩
  · intro reached
    have store := store_of_apart reached idle
    exact ⟨store, fun reads => store ▸ consistent_performAll reads⟩

/-- A removal and a put with different keys, whose actions alternate. -/
theorem reachableApart_mixed (r : Revision) :
    ∃ s, ReachableApart ⟨s, [], [.put r, .remove (storeKey r ++ "!")]⟩ := by
  have keys : storeKey r ≠ storeKey r ++ "!" := by
    intro same
    have length := congrArg String.length same
    simp at length
  have both {s : MemoryStore} {left others : List Action} {started : List Operation}
      (here : left ⊆ putActions r) (there : others ⊆ removeActions (storeKey r ++ "!")) :
      Apart ⟨s, [left, others], started⟩ := by
    refine List.pairwise_pair.2 fun a mem b memToo => ?_
    have mem := here mem
    have memToo := there memToo
    simp only [putActions, removeActions, List.mem_cons, List.not_mem_nil, or_false] at mem memToo
    rcases mem with rfl | rfl <;> rcases memToo with rfl | rfl <;> exact keys
  have alone {s : MemoryStore} {left : List Action} {started : List Operation} :
      Apart ⟨s, [left], started⟩ := List.pairwise_singleton _ _
  have last : [Action.setSummary (storeKey r) (.ofRevision r)] ⊆ putActions r :=
    List.subset_cons_self _ _
  have lastToo : [Action.dropText (storeKey r ++ "!")] ⊆ removeActions (storeKey r ++ "!") :=
    List.subset_cons_self _ _
  let next (t u : Traffic) : Prop := Step t u ∧ u.Apart
  have path := (Relation.ReflTransGen.refl (r := next) (a := new)).tail
    ⟨.start _ _ _ (.put r), alone⟩
  have path := path.tail ⟨.act _ [] [] _ _ _, alone⟩
  have path := path.tail ⟨.start _ _ _ (.remove (storeKey r ++ "!")), both last (.refl _)⟩
  have path := path.tail ⟨.act _ [_] [] _ _ _, both last lastToo⟩
  have path := path.tail ⟨.act _ [] [_] _ _ _, both (List.nil_subset _) lastToo⟩
  have path := path.tail ⟨.act _ [_] [] _ _ _, both (List.nil_subset _) (List.nil_subset _)⟩
  have path := path.tail ⟨.finish _ [] [_] _, alone⟩
  exact ⟨_, path.tail ⟨.finish _ [] [] _, .nil⟩⟩

theorem store_of_idle_mixed :
    ∃ (r : Revision) (t : Traffic), t.started = [.put r, .remove (storeKey r ++ "!")] ∧
      t.running = [] ∧ t.ReachableApart ∧ t.store = performAll ∅ t.started ∧
      t.store.Consistent := by
  obtain ⟨r, _, _, _, reads, _⟩ := Revision.exists_replaced
  obtain ⟨s, reached⟩ := reachableApart_mixed r
  obtain ⟨store, consistent⟩ := (store_of_idle rfl).2 reached
  refine ⟨r, _, rfl, rfl, reached, store, consistent fun t mem => ?_⟩
  simp only [List.mem_cons, Operation.put.injEq, reduceCtorEq, List.not_mem_nil, or_false] at mem
  exact mem ▸ reads

/-- The store after two calls, the second of which falls between the actions of the first. -/
def putInside (r s : Revision) : MemoryStore :=
  [.setText (storeKey r) r.compact, .setText (storeKey s) s.compact,
    .setSummary (storeKey s) (.ofRevision s), .setSummary (storeKey r) (.ofRevision r)].foldl act ∅

theorem reachable_putInside (r s : Revision) :
    Reachable ⟨putInside r s, [], [.put r, .put s]⟩ := by
  have path := (Relation.ReflTransGen.refl (r := Step) (a := new)).tail (.start _ _ _ (.put r))
  have path := path.tail (.act _ [] _ _ _ _)
  have path := path.tail (.start _ _ _ (.put s))
  have path := path.tail (.act _ [_] [] _ _ _)
  have path := path.tail (.act _ [_] [] _ _ _)
  have path := path.tail (.finish _ [_] [] _)
  have path := path.tail (.act _ [] [] _ _ _)
  exact path.tail (.finish _ [] [] _)

/-- The text of the one call is left beside the summary of the other. -/
theorem not_consistent_of_idle :
    ¬ ∀ t : Traffic, t.Reachable → t.running = [] →
      (∀ r, .put r ∈ t.started → r.ReadsBack) → t.store.Consistent := by
  intro always
  obtain ⟨r, s, named, later, reads, readsToo⟩ := Revision.exists_replaced
  have each (t : Revision) (mem : .put t ∈ [Operation.put r, .put s]) : t.ReadsBack := by
    simp only [List.mem_cons, Operation.put.injEq, List.not_mem_nil, or_false] at mem
    rcases mem with rfl | rfl
    · exact reads
    · exact readsToo
  have consistent : (putInside r s).Consistent := always _ (reachable_putInside r s) rfl each
  have sameKey : storeKey s = storeKey r := congrArg Uri.text named.symm
  have text : (putInside r s).texts.get? (storeKey s) = some s.compact :=
    (SortedMap.get?_insert _ _ _ _).trans (if_pos rfl)
  have summary : (putInside r s).summaries.get? (storeKey s) = some (.ofRevision r) :=
    (SortedMap.get?_insert _ _ _ _).trans (if_pos sameKey)
  obtain ⟨warnings, read⟩ := readsToo
  have got : get? (putInside r s) (storeKey s) = .ok (some s) := by
    simp only [get?, text, readStored, read]
    rfl
  have listed := consistent.summaries _ _ got
  have same : Summary.ofRevision r = .ofRevision s := Option.some.inj (summary.symm.trans listed)
  have seconds : r.timestamp.seconds = s.timestamp.seconds := congrArg Summary.timestamp same
  rw [← Timestamp.ofInt64_seconds r.timestamp, seconds, Timestamp.ofInt64_seconds] at later
  exact later rfl

end Traffic

end MemoryStore

end RevisionGraph
