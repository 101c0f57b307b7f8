import RevisionGraph.CallGraph.Lookup

/-!
# Histories of a call graph

Calls are added to a graph and taken out of it, one pair at a time. Each pair, call site and key is
then as the last change says that says anything about it, and changes that say nothing about the
same thing may be made in either order: `CallGraph.history_decides`.
-/

namespace RevisionGraph

open Json (Metadata Value)

namespace CallSites

/-! ### Call sites that are added -/

/-- No key is given a value by both for one call site. -/
def KeysApart (added more : CallSites) : Prop :=
  ∀ site first second, added.get? site = some first → more.get? site = some second →
    ∀ key, first.contains key → second.contains key = false

/-- Two calls give no value under the same key if they are at different call sites or have different
keys. -/
theorem keysApart_single {site other : Int64} {first second : Metadata}
    (apart : site ≠ other ∨ ∀ key, first.contains key → second.contains key = false) :
    KeysApart (SortedMap.empty.insert site first) (SortedMap.empty.insert other second) := by
  intro at' one two held also
  simp only [SortedMap.get?_single, Option.ite_none_right_eq_some, Option.some.injEq] at held also
  obtain ⟨rfl, rfl⟩ := held
  obtain ⟨rfl, rfl⟩ := also
  exact apart.resolve_left fun elsewhere => elsewhere rfl

theorem merge_right_comm (sites : CallSites) {added more : CallSites}
    (apart : KeysApart added more) :
    (sites.merge added).merge more = (sites.merge more).merge added := by
  apply SortedMap.ext_get?
  intro site
  simp only [get?_merge]
  cases first : added.get? site with
  | none => rfl
  | some one =>
    cases second : more.get? site with
    | none => rfl
    | some other =>
      have keys := apart site one other first second
      exact congrArg some (SortedMap.union_right_comm keys)

end CallSites

namespace CallGraph

/-! ### Changes -/

/-- What is done to a pair of a relation. -/
inductive Deed where
  | addCall (site : Int64) (metadata : Metadata)
  | addSites (sites : CallSites)
  | removeCall

structure Change where
  relation : Relation
  pair : CallPair
  deed : Deed

/-- Makes a change, and gives the call sites that it took out. -/
def perform (g : CallGraph) (c : Change) : Option CallSites × CallGraph :=
  match c.deed with
  | .addCall site metadata => (none, g.addCall c.relation c.pair site metadata)
  | .addSites sites => (none, g.addSites c.relation c.pair sites)
  | .removeCall => g.takeCall c.relation c.pair

def after (g : CallGraph) (c : Change) : CallGraph := (g.perform c).2

def afterAll (g : CallGraph) (changes : List Change) : CallGraph := changes.foldl after g

/-- The call sites that a deed adds. -/
def Deed.added? : Deed → Option CallSites
  | .addCall site metadata => some (SortedMap.empty.insert site metadata)
  | .addSites sites => some sites
  | .removeCall => none

/-- The call sites of a pair after a deed. -/
def Deed.act (held : Option CallSites) (deed : Deed) : Option CallSites :=
  deed.added?.map fun added => (held.getD ∅).merge added

theorem sites?_after (g : CallGraph) (c : Change) (relation : Relation) (pair : CallPair) :
    (g.after c).sites? relation pair =
      if c.relation = relation ∧ c.pair = pair then c.deed.act (g.sites? relation pair)
      else g.sites? relation pair := by
  obtain ⟨relation', pair', deed⟩ := c
  by_cases here : relation' = relation ∧ pair' = pair
  · obtain ⟨rfl, rfl⟩ := here
    rw [if_pos ⟨rfl, rfl⟩]
    cases deed with
    | addCall | addSites => exact (sites?_addSites ..).trans (if_pos ⟨rfl, rfl⟩)
    | removeCall => exact (sites?_removeCall ..).trans (if_pos ⟨rfl, rfl⟩)
  · have elsewhere : ¬ (relation = relation' ∧ pair = pair') := by
      rintro ⟨rfl, rfl⟩
      exact here ⟨rfl, rfl⟩
    rw [if_neg here]
    cases deed with
    | addCall | addSites => exact (sites?_addSites ..).trans (if_neg elsewhere)
    | removeCall => exact (sites?_removeCall ..).trans (if_neg elsewhere)

/-! ### What a deed says -/

namespace Deed

/-- Whether the pair is there. -/
def pair? : Deed → Option Bool
  | .addCall .. | .addSites _ => some true
  | .removeCall => some false

/-- Whether a call site of the pair is there. -/
def site? (site : Int64) : Deed → Option Bool
  | .addCall added _ => if site = added then some true else none
  | .addSites sites => if sites.contains site then some true else none
  | .removeCall => some false

/-- The value under a key of a call site, if there is one. -/
def value? (site : Int64) (key : String) : Deed → Option (Option Value)
  | .addCall added metadata => if site = added then (metadata.get? key).map some else none
  | .addSites sites => ((sites.get? site).bind fun metadata => metadata.get? key).map some
  | .removeCall => some none

end Deed

/-- The metadata of a call site of a pair, if both are there. -/
def metadataAt (held : Option CallSites) (site : Int64) : Option Metadata :=
  held.bind fun sites => sites.get? site

/-- The value under a key of a call site of a pair. -/
def valueAt (held : Option CallSites) (site : Int64) (key : String) : Option Value :=
  (metadataAt held site).bind fun metadata => metadata.get? key

theorem metadataAt_merge (held : Option CallSites) (added : CallSites) (site : Int64) :
    metadataAt (some ((held.getD ∅).merge added)) site =
      CallSites.joined (metadataAt held site) (added.get? site) := by
  refine (CallSites.get?_merge _ added site).trans ?_
  cases held <;> rfl

theorem isSome_act (held : Option CallSites) (deed : Deed) :
    (deed.act held).isSome = deed.pair?.getD held.isSome := by
  cases deed <;> rfl

theorem metadataAt_act (held : Option CallSites) (site : Int64) (deed : Deed) :
    (metadataAt (deed.act held) site).isSome =
      (deed.site? site).getD (metadataAt held site).isSome := by
  have merged (added : CallSites) :
      (metadataAt (some ((held.getD ∅).merge added)) site).isSome =
        (if added.contains site then some true else none).getD (metadataAt held site).isSome := by
    rw [metadataAt_merge, SortedMap.contains]
    cases added.get? site <;> rfl
  cases deed with
  | addCall added metadata =>
    refine (merged _).trans ?_
    rw [SortedMap.contains, SortedMap.get?_single]
    by_cases here : site = added <;> simp [Deed.site?, here]
  | addSites sites => exact merged sites
  | removeCall => rfl

theorem valueAt_act (held : Option CallSites) (site : Int64) (key : String) (deed : Deed) :
    valueAt (deed.act held) site key = (deed.value? site key).getD (valueAt held site key) := by
  have merged (added : CallSites) : valueAt (some ((held.getD ∅).merge added)) site key =
      (((added.get? site).bind fun metadata => metadata.get? key).map some).getD
        (valueAt held site key) := by
    unfold valueAt
    rw [metadataAt_merge]
    cases added.get? site with
    | none => rfl
    | some metadata =>
      simp only [CallSites.joined, Option.bind_some, SortedMap.get?_union]
      cases metadataAt held site <;> cases metadata.get? key <;> rfl
  cases deed with
  | addCall added metadata =>
    refine (merged _).trans ?_
    rw [SortedMap.get?_single]
    by_cases here : site = added <;> simp [Deed.value?, here]
  | addSites sites => exact merged sites
  | removeCall => rfl

/-! ### Histories -/

section Histories

variable {α : Type} (rule : Deed → Option α) (relation : Relation) (pair : CallPair)

/-- What a change decides about a pair by a rule for deeds. -/
def Change.verdict? (c : Change) : Option α :=
  if c.relation = relation ∧ c.pair = pair then rule c.deed else none

/-- What the last change decides that decides anything; what was so at first if none does. -/
def lastVerdict (first : α) (changes : List Change) : α :=
  (changes.reverse.findSome? fun c => c.verdict? rule relation pair).getD first

theorem lastVerdict_cons (first : α) (c : Change) (changes : List Change) :
    lastVerdict rule relation pair first (c :: changes) =
      lastVerdict rule relation pair ((c.verdict? rule relation pair).getD first) changes := by
  unfold lastVerdict
  rw [List.reverse_cons, List.findSome?_append]
  cases changes.reverse.findSome? fun c => c.verdict? rule relation pair with
  | none => simp
  | some last => rfl

variable {rule relation pair}

/-- If a rule tells what is observed of a pair after one deed, the last verdict tells it after all
changes. -/
theorem observe_afterAll (observe : Option CallSites → α)
    (tells : ∀ held deed, observe (Deed.act held deed) = (rule deed).getD (observe held))
    (g : CallGraph) (changes : List Change) :
    observe ((g.afterAll changes).sites? relation pair) =
      lastVerdict rule relation pair (observe (g.sites? relation pair)) changes := by
  induction changes generalizing g with
  | nil => rfl
  | cons c changes ih =>
    have step : observe ((g.after c).sites? relation pair) =
        (c.verdict? rule relation pair).getD (observe (g.sites? relation pair)) := by
      rw [sites?_after, Change.verdict?]
      split
      · exact tells _ _
      · rfl
    rw [lastVerdict_cons, ← step]
    exact ih (g.after c)

end Histories

theorem eq_of_isSome_eq {α : Type} {first second : Option α}
    (present : first.isSome = second.isSome)
    (same : ∀ a b, first = some a → second = some b → a = b) : first = second := by
  cases first with
  | none =>
    cases second with
    | none => rfl
    | some b => cases present
  | some a =>
    cases second with
    | none => cases present
    | some b => exact congrArg some (same a b rfl rfl)

/-- A pair with the call sites `first` has the call sites `last` after the changes: what is there,
and with which values, was decided last. -/
structure Decided (changes : List Change) (relation : Relation) (pair : CallPair)
    (first last : Option CallSites) : Prop where
  present : last.isSome = lastVerdict Deed.pair? relation pair first.isSome changes
  sites : ∀ site, (metadataAt last site).isSome =
    lastVerdict (Deed.site? site) relation pair (metadataAt first site).isSome changes
  values : ∀ site key, valueAt last site key =
    lastVerdict (Deed.value? site key) relation pair (valueAt first site key) changes

theorem decided_afterAll (g : CallGraph) (changes : List Change) (relation : Relation)
    (pair : CallPair) :
    Decided changes relation pair (g.sites? relation pair)
      ((g.afterAll changes).sites? relation pair) where
  present := observe_afterAll Option.isSome isSome_act g changes
  sites site := observe_afterAll (fun held => (metadataAt held site).isSome)
    (fun held deed => metadataAt_act held site deed) g changes
  values site key := observe_afterAll (fun held => valueAt held site key)
    (fun held deed => valueAt_act held site key deed) g changes

/-- What is there, and with which values, is all that there is to a pair. -/
theorem Decided.unique {changes : List Change} {relation : Relation} {pair : CallPair}
    {first last other : Option CallSites} (decided : Decided changes relation pair first last)
    (also : Decided changes relation pair first other) : last = other := by
  have sites (site : Int64) : metadataAt last site = metadataAt other site := by
    apply eq_of_isSome_eq ((decided.sites site).trans (also.sites site).symm)
    intro metadata metadata' held held'
    apply SortedMap.ext_get?
    intro key
    have values := (decided.values site key).trans (also.values site key).symm
    unfold valueAt at values
    rwa [held, held'] at values
  apply eq_of_isSome_eq (decided.present.trans also.present.symm)
  rintro last other rfl rfl
  exact SortedMap.ext_get? sites

/-! ### The order of changes -/

/-- The changes are about different pairs, or both add and give no value under the same key of the
same call site. -/
def Independent (c d : Change) : Prop :=
  (c.relation, c.pair) ≠ (d.relation, d.pair) ∨
    ∃ added more, c.deed.added? = some added ∧ d.deed.added? = some more ∧ added.KeysApart more

theorem Independent.act_comm {c d : Change} (independent : Independent c d) {relation : Relation}
    {pair : CallPair} (here : c.relation = relation ∧ c.pair = pair)
    (also : d.relation = relation ∧ d.pair = pair) (held : Option CallSites) :
    d.deed.act (c.deed.act held) = c.deed.act (d.deed.act held) := by
  rcases independent with apart | ⟨added, more, first, second, keys⟩
  · have same : (c.relation, c.pair) = (d.relation, d.pair) := by
      rw [here.1, here.2, also.1, also.2]
    exact absurd same apart
  · simp only [Deed.act, first, second, Option.map_some, Option.getD_some]
    exact congrArg some (CallSites.merge_right_comm _ keys)

theorem after_comm (g : CallGraph) {c d : Change} (independent : Independent c d) :
    (g.after c).after d = (g.after d).after c := by
  apply ext_sites?
  intro relation pair
  simp only [sites?_after]
  by_cases here : c.relation = relation ∧ c.pair = pair
  · by_cases also : d.relation = relation ∧ d.pair = pair
    · simp only [here, also, and_self, if_true]
      exact independent.act_comm here also _
    · simp only [here, also, and_self, if_true, if_false]
  · simp only [here, if_false]

/-- A change takes out the same call sites whether an independent one comes before it or not. -/
theorem perform_after (g : CallGraph) {c d : Change} (independent : Independent c d) :
    ((g.after c).perform d).1 = (g.perform d).1 := by
  obtain ⟨relation, pair, deed⟩ := d
  cases deed with
  | addCall | addSites => rfl
  | removeCall =>
    rcases independent with apart | ⟨_, _, _, removes, _⟩
    · show (g.after c).sites? relation pair = g.sites? relation pair
      rw [sites?_after, if_neg]
      rintro ⟨rfl, rfl⟩
      exact apart rfl
    · cases removes

theorem Independent.symm {c d : Change} (independent : Independent c d) : Independent d c := by
  rcases independent with apart | ⟨added, more, first, second, keys⟩
  · exact .inl (Ne.symm apart)
  · refine .inr ⟨more, added, second, first, ?_⟩
    intro site one other held also key given
    cases taken : other.contains key with
    | false => rfl
    | true =>
      have absent := keys site other one also held key taken
      cases given.symm.trans absent

theorem after_again (g : CallGraph) {c : Change} (adds : c.deed.added?.isSome) :
    (g.after c).after c = g.after c := by
  obtain ⟨added, adds⟩ := Option.isSome_iff_exists.1 adds
  apply ext_sites?
  intro relation pair
  simp only [sites?_after]
  split
  · simp only [Deed.act, adds, Option.map_some, Option.getD_some]
    rw [CallSites.merge_assoc, CallSites.merge_self]
  · rfl

/-- After any changes of any graph each pair, call site and key is as was decided last, which
determines the graph, and a removal gives the call sites that the pair then has. Independent changes
may be made in either order, and to add again what was just added changes nothing. -/
theorem history_decides (g : CallGraph) (changes : List Change) :
    (∀ h : CallGraph,
      (∀ relation pair,
        Decided changes relation pair (g.sites? relation pair) (h.sites? relation pair)) ↔
        h = g.afterAll changes) ∧
    (∀ relation pair, (g.afterAll changes).perform ⟨relation, pair, .removeCall⟩ =
      ((g.afterAll changes).sites? relation pair,
        g.afterAll (changes ++ [⟨relation, pair, .removeCall⟩]))) ∧
    (∀ c d, Independent c d →
      (g.after c).after d = (g.after d).after c ∧
        ((g.after c).perform d).1 = (g.perform d).1 ∧
        ((g.after d).perform c).1 = (g.perform c).1) ∧
    ∀ c, c.deed.added?.isSome → (g.after c).after c = g.after c := by
  refine ⟨fun h => ⟨fun decided => ?_, ?_⟩, ?_, ?_, fun c adds => after_again g adds⟩
  · apply ext_sites?
    intro relation pair
    exact (decided relation pair).unique (decided_afterAll g changes relation pair)
  · rintro rfl
    exact decided_afterAll g changes
  · intro relation pair
    unfold afterAll
    rw [List.foldl_append]
    rfl
  · intro c d independent
    exact ⟨after_comm g independent, perform_after g independent,
      perform_after g independent.symm⟩

theorem history_decides_again :
    let type : Metadata := SortedMap.empty.insert "type" (.text "virtual")
    let receiver : Metadata := SortedMap.empty.insert "receiver" (.text "/dep/Util")
    let call : Change := ⟨.external, ⟨0, 100⟩, .addCall 5 type⟩
    let more : Change := ⟨.external, ⟨0, 100⟩, .addSites (SortedMap.empty.insert 5 receiver)⟩
    let remove : Change := ⟨.external, ⟨0, 100⟩, .removeCall⟩
    let last := (afterAll ∅ [call, more, remove, more]).sites? .external ⟨0, 100⟩
    Independent call more ∧ (after ∅ call).after more = (after ∅ more).after call ∧
      valueAt last 5 "receiver" = some (.text "/dep/Util") ∧ valueAt last 5 "type" = none := by
  intro type receiver call more remove last
  have keys (key : String) (given : type.contains key) : receiver.contains key = false := by
    simp only [type, SortedMap.contains, SortedMap.get?_single] at given
    split at given <;> rename_i same
    · rw [same]
      decide
    · cases given
  have independent : Independent call more :=
    .inr ⟨_, _, rfl, rfl, CallSites.keysApart_single (.inr keys)⟩
  obtain ⟨decides, _, comm, _⟩ := history_decides ∅ [call, more, remove, more]
  have decided := (decides _).2 rfl .external ⟨0, 100⟩
  exact ⟨independent, (comm call more independent).1, (decided.values 5 "receiver").trans rfl,
    (decided.values 5 "type").trans rfl⟩

end CallGraph

end RevisionGraph
