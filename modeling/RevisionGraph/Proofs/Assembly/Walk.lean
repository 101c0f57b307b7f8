import RevisionGraph.Proofs.Assembly.Kept
import RevisionGraph.Proofs.Assembly.Success

/-!
# Walks

A walk over facts stops at the first that fails. It gets to the end just if each fact is taken in by
the ledger of those before it: `Ledger.Describes.succeeds_iff`.
-/

namespace RevisionGraph

/-! ### Items and those before them -/

section AllAfter

variable {α β : Type}

/-- Each item is as it has to be after those before it. -/
def AllAfter (P : List α → α → Prop) (items : List α) : Prop :=
  ∀ before item after, items = before ++ item :: after → P before item

variable {P : List α → α → Prop}

theorem allAfter_nil : AllAfter P [] := by
  intro before item after parts
  simp at parts

theorem allAfter_cons {item : α} {items : List α} :
    AllAfter P (item :: items) ↔ P [] item ∧ AllAfter (fun before => P (item :: before)) items := by
  constructor
  · intro all
    refine ⟨all [] item items rfl, ?_⟩
    rintro before other after rfl
    exact all (item :: before) other after rfl
  · rintro ⟨first, rest⟩ (_ | ⟨_, before⟩) other after parts
    · cases parts
      exact first
    · cases parts
      exact rest before other after rfl

theorem allAfter_append {first second : List α} :
    AllAfter P (first ++ second) ↔
      AllAfter P first ∧ AllAfter (fun before => P (first ++ before)) second := by
  induction first generalizing P with
  | nil => simp [allAfter_nil]
  | cons item first ih =>
    rw [List.cons_append, allAfter_cons, allAfter_cons, ih, and_assoc]
    rfl

theorem allAfter_map {f : β → α} {items : List β} :
    AllAfter P (items.map f) ↔ AllAfter (fun before item => P (before.map f) (f item)) items := by
  induction items generalizing P with
  | nil => simp [allAfter_nil]
  | cons item items ih =>
    rw [List.map_cons, allAfter_cons, allAfter_cons, ih]
    rfl

theorem allAfter_forall {R : α → Prop} {items : List α} :
    AllAfter (fun _ item => R item) items ↔ ∀ item ∈ items, R item := by
  constructor
  · intro all item mem
    obtain ⟨before, after, parts⟩ := List.append_of_mem mem
    exact all before item after parts
  · rintro all before item after rfl
    exact all item (List.mem_append_right before List.mem_cons_self)

end AllAfter

/-! ### Walks -/

namespace Assembler

open Assembly

/-- A walk that stops at the first failure gets to the end just if nothing fails, and then it leaves
what a run leaves. -/
theorem walk_eq_ok_iff {a next : Assembler} {facts : List Fact} :
    (facts.forM fun fact => discard (step fact)).outcome a = (.ok (), next) ↔
      a.Succeeds facts ∧ a.run facts = next := by
  induction facts generalizing a with
  | nil =>
    constructor
    · rintro ⟨⟩
      exact ⟨fun _ mem => (by cases mem), rfl⟩
    · rintro ⟨_, rfl⟩
      rfl
  | cons fact facts ih =>
    rw [walk_cons, outcome_bind, outcome_discard, succeeds_cons, run_cons]
    rcases (step fact).outcome a with ⟨failure | id, between⟩
    · simp [Except.map, Except.isOk, Except.toBool]
    · exact ih.trans (and_congr_left fun _ => (and_iff_right rfl).symm)

end Assembler

namespace Ledger

open Assembler

variable {l : Ledger} {a : Assembler}

/-- A run succeeds just if the ledger of the facts before each fact takes in its entry. -/
theorem Describes.succeeds_iff (d : l.Describes a) (sound : l.Sound) {facts : List Fact}
    (room : (l.recordAll facts).rows.length < 2 ^ 63) :
    a.Succeeds facts ↔
      AllAfter (fun before fact =>
        ∃ entry, fact.entry? = some entry ∧ (l.recordAll before).takes entry) facts := by
  -- The ledger goes along with the assembler, so both are those after the facts walked so far.
  induction facts generalizing l a with
  | nil => exact ⟨fun _ => allAfter_nil, fun _ _ mem => by cases mem⟩
  | cons fact facts ih =>
    rw [succeeds_cons, allAfter_cons]
    by_cases taken : ∃ entry, fact.entry? = some entry ∧ l.takes entry
    · obtain ⟨entry, read, takes⟩ := taken
      have later := l.recordAll_cons read
      rw [later] at room
      have more := (l.record entry).rows_prefix_recordAll facts
      obtain ⟨next, outcome, describes, soundAfter⟩ :=
        d.outcome_of_takes sound read takes (Nat.lt_of_le_of_lt more.length_le room)
      rw [outcome]
      simp only [later]
      exact and_congr ⟨fun _ => ⟨entry, read, takes⟩, fun _ => rfl⟩ (ih describes soundAfter room)
    · have few := Nat.lt_of_le_of_lt (l.rows_prefix_recordAll (fact :: facts)).length_le room
      exact iff_of_false (fun both => taken (d.takes_of_isOk sound few both.1))
        (fun both => taken both.1)

theorem mem_uris_recordAll {facts : List Fact} {uri : Uri} :
    uri ∈ (empty.recordAll facts).uris ↔
      ∃ fact ∈ facts, ∃ entry, fact.entry? = some entry ∧ entry.meets? = some uri := by
  rw [recordAll, mem_uris_foldl_record]
  constructor
  · rintro (none | ⟨entry, mem, meets⟩)
    · cases none
    · obtain ⟨fact, mem, read⟩ := List.mem_filterMap.1 mem
      exact ⟨fact, mem, entry, read, meets⟩
  · rintro ⟨fact, mem, entry, read, meets⟩
    exact .inr ⟨entry, List.mem_filterMap.2 ⟨fact, mem, read⟩, meets⟩

theorem contains_recordAll {facts : List Fact} {uri : Uri} :
    (empty.recordAll facts).types.contains uri ↔
      ∃ fact ∈ facts, ∃ entry, fact.entry? = some entry ∧ entry.declares? = some uri := by
  rw [recordAll, contains_foldl_record]
  constructor
  · rintro (none | ⟨entry, mem, declares⟩)
    · cases none
    · obtain ⟨fact, mem, read⟩ := List.mem_filterMap.1 mem
      exact ⟨fact, mem, entry, read, declares⟩
  · rintro ⟨fact, mem, entry, read, declares⟩
    exact .inr ⟨entry, List.mem_filterMap.2 ⟨fact, mem, read⟩, declares⟩

end Ledger

end RevisionGraph
