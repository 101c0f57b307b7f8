import RevisionGraph.Proofs.Assembly.Run

/-!
# Which entries are taken

Whether an entry is taken depends on the methods that were met and the types that are declared, and
on nothing else (`Ledger.takes`). So a declaration may come early or late: `Ledger.taken_late`.
-/

namespace RevisionGraph

namespace Entry

def declares? : Entry → Option Uri
  | .type uri _ => some uri
  | .method m => m.uri.home?
  | .call _ => none

def meets? : Entry → Option Uri
  | .type .. => none
  | .method m => m.uri.home?.map fun _ => m.uri
  | .call c => some c.callee

def call? : Entry → Option Call
  | .call c => some c
  | _ => none

end Entry

namespace Ledger

variable {l l' : Ledger} {a : Assembler}

/-! ### What an entry adds -/

theorem contains_record (l : Ledger) (entry : Entry) (uri : Uri) :
    (l.record entry).types.contains uri ↔
      l.types.contains uri ∨ entry.declares? = some uri := by
  cases entry with
  | type declared header =>
    show (l.declare declared header).types.contains uri ↔ _ ∨ some declared = some uri
    rw [contains_declare, Bool.or_eq_true, decide_eq_true_eq, Option.some.injEq, or_comm,
      eq_comm (b := declared)]
  | method method =>
    cases homed : method.uri.home? with
    | none => simp [record, Entry.declares?, homed]
    | some home =>
      rw [record_method homed, types_enrol, Entry.declares?, homed, Option.some.injEq]
      cases declared : l.types.contains home with
      | true =>
        rw [declareNew_of_declared declared]
        exact ⟨.inl, fun either => either.elim id fun same => same ▸ declared⟩
      | false =>
        rw [declareNew_of_new declared, contains_declare, Bool.or_eq_true, decide_eq_true_eq,
          or_comm, eq_comm (b := home)]
  | call call =>
    show (l.enrol _).types.contains uri ↔ _
    rw [types_enrol]
    simp [Entry.declares?]

theorem uris_declareNew (l : Ledger) (home : Uri) : (l.declareNew home).uris = l.uris := by
  unfold uris
  rw [rows_declareNew]

theorem mem_uris_record (l : Ledger) (entry : Entry) (uri : Uri) :
    uri ∈ (l.record entry).uris ↔ uri ∈ l.uris ∨ entry.meets? = some uri := by
  cases entry with
  | type declared header =>
    show uri ∈ l.uris ↔ _
    simp [Entry.meets?]
  | method method =>
    cases homed : method.uri.home? with
    | none => simp [record, Entry.meets?, homed]
    | some home =>
      rw [record_method homed, mem_uris_enrol, uris_declareNew, Entry.meets?, homed,
        Option.map_some, Option.some.injEq, eq_comm]
  | call call =>
    show uri ∈ (l.enrol _).uris ↔ _
    rw [mem_uris_enrol, Entry.meets?, Option.some.injEq, eq_comm]
    rfl

theorem calls_record (l : Ledger) (entry : Entry) :
    (l.record entry).calls = l.calls ++ entry.call?.toList := by
  cases entry with
  | type => exact (List.append_nil _).symm
  | method method =>
    cases homed : method.uri.home? with
    | none => simp [record, Entry.call?, homed]
    | some home =>
      rw [record_method homed, calls_enrol]
      unfold declareNew
      split <;> exact (List.append_nil _).symm
  | call call =>
    show (l.enrol _).calls ++ [call] = _
    rw [calls_enrol]
    rfl

theorem contains_foldl_record (entries : List Entry) (l : Ledger) (uri : Uri) :
    (entries.foldl record l).types.contains uri ↔
      l.types.contains uri ∨ ∃ entry ∈ entries, entry.declares? = some uri := by
  induction entries generalizing l with
  | nil => simp
  | cons entry entries ih => simp [ih, contains_record, or_assoc]

theorem mem_uris_foldl_record (entries : List Entry) (l : Ledger) (uri : Uri) :
    uri ∈ (entries.foldl record l).uris ↔
      uri ∈ l.uris ∨ ∃ entry ∈ entries, entry.meets? = some uri := by
  induction entries generalizing l with
  | nil => simp
  | cons entry entries ih => simp [ih, mem_uris_record, or_assoc]

theorem calls_foldl_record (entries : List Entry) (l : Ledger) :
    (entries.foldl record l).calls = l.calls ++ entries.filterMap Entry.call? := by
  induction entries generalizing l with
  | nil => simp
  | cons entry entries ih =>
    rw [List.foldl_cons, ih, calls_record, List.append_assoc, List.filterMap_cons]
    cases entry.call? <;> rfl

/-! ### Taken entries -/

def taken (l : Ledger) : List Entry → List Entry
  | [] => []
  | entry :: entries =>
    if l.takes entry then entry :: (l.record entry).taken entries else l.taken entries

/-- The accepted facts are those whose entries the ledger takes in. -/
theorem Describes.filterMap_accepted (d : l.Describes a) (sound : l.Sound) (facts : List Fact)
    (few : l.rows.length + facts.length < 2 ^ 63) :
    (a.accepted facts).filterMap Fact.entry? = l.taken (facts.filterMap Fact.entry?) := by
  induction facts generalizing l a with
  | nil => rfl
  | cons fact facts ih =>
    rw [List.length_cons] at few
    rw [List.filterMap_cons]
    rcases d.step_cases sound (by omega) fact with
      ⟨refused, refuses⟩ | ⟨entry, id, next, read, takes, ok, describes, soundAfter⟩
    · rw [Assembler.accepted_cons_of_refused refused, ih d sound (by omega)]
      cases read : fact.entry? with
      | none => rfl
      | some entry =>
        show _ = l.taken (entry :: facts.filterMap Fact.entry?)
        rw [taken, refuses entry read]
        rfl
    · have length := l.length_record_le entry
      rw [Assembler.accepted_cons_of_ok ok, List.filterMap_cons, read]
      dsimp only
      rw [ih describes soundAfter (by omega), taken, if_pos takes]

/-! ### Early and late declarations -/

/-- All that one ledger has met and declared, the other has too. -/
structure Within (l l' : Ledger) : Prop where
  uris : ∀ uri, uri ∈ l.uris → uri ∈ l'.uris
  types : ∀ uri, l.types.contains uri → l'.types.contains uri

theorem Within.takes (within : l.Within l') {entry : Entry} (takes : l.takes entry) :
    l'.takes entry := by
  cases entry with
  | type => rfl
  | method => exact takes
  | call call =>
    obtain ⟨met, declared, homed⟩ := takes_call_iff.1 takes
    obtain ⟨home, callerHomed, declared⟩ := isDeclared_iff.1 declared
    exact takes_call_iff.2
      ⟨within.uris _ met, isDeclared_iff.2 ⟨home, callerHomed, within.types _ declared⟩, homed⟩

theorem Within.record (within : l.Within l') (entry : Entry) :
    (l.record entry).Within (l'.record entry) where
  uris uri := by
    rw [mem_uris_record, mem_uris_record]
    exact Or.imp_left (within.uris uri)
  types uri := by
    rw [contains_record, contains_record]
    exact Or.imp_left (within.types uri)

theorem within_record (l : Ledger) (entry : Entry) : l.Within (l.record entry) where
  uris uri met := (mem_uris_record l entry uri).2 (.inl met)
  types uri declared := (contains_record l entry uri).2 (.inl declared)

theorem length_taken_le (l : Ledger) (entries : List Entry) :
    (l.taken entries).length ≤ entries.length := by
  induction entries generalizing l with
  | nil => exact Nat.le_refl _
  | cons entry entries ih =>
    rw [taken]
    split
    · exact Nat.succ_le_succ (ih _)
    · exact Nat.le_succ_of_le (ih l)

theorem Within.taken_eq (within : l.Within l') {entries : List Entry}
    (all : l.taken entries = entries) : l'.taken entries = entries := by
  induction entries generalizing l l' with
  | nil => rfl
  | cons entry entries ih =>
    rw [taken] at all ⊢
    split at all <;> rename_i takes
    · rw [if_pos (within.takes takes), ih (within.record entry) (List.cons.inj all).2]
    · have shorter := l.length_taken_le entries
      rw [all, List.length_cons] at shorter
      omega

theorem taken_congr (within : l.Within l') (also : l'.Within l) (entries : List Entry) :
    l.taken entries = l'.taken entries := by
  induction entries generalizing l l' with
  | nil => rfl
  | cons entry entries ih =>
    have same : l.takes entry = l'.takes entry :=
      Bool.eq_iff_iff.2 ⟨within.takes, also.takes⟩
    unfold taken
    rw [same, ih within also, ih (within.record entry) (also.record entry)]

theorem taken_append (l : Ledger) (first second : List Entry) :
    l.taken (first ++ second) =
      l.taken first ++ ((l.taken first).foldl Ledger.record l).taken second := by
  induction first generalizing l with
  | nil => rfl
  | cons entry first ih =>
    rw [List.cons_append, taken, taken]
    split
    · rw [ih, List.cons_append, List.foldl_cons]
    · exact ih l

/-- A declaration may come before or after entries that are taken anyway. -/
theorem taken_late {declaration : Entry} (noCall : declaration.call? = none) {between : List Entry}
    (all : l.taken between = between) (rest : List Entry) :
    (l.taken (between ++ declaration :: rest)).Perm (l.taken (declaration :: (between ++ rest))) ∧
      (l.taken (between ++ declaration :: rest)).filterMap Entry.call? =
        (l.taken (declaration :: (between ++ rest))).filterMap Entry.call? := by
  have takes (l l' : Ledger) : l.takes declaration = l'.takes declaration := by
    cases declaration with
    | type => rfl
    | method => rfl
    | call => cases noCall
  rw [taken_append, all, taken, taken, takes _ l]
  split
  · have allAfter := (l.within_record declaration).taken_eq all
    -- Both orders have met and declared the same, so they take the same of the rest.
    have early : ((between.foldl Ledger.record l).record declaration).Within
        (between.foldl Ledger.record (l.record declaration)) := by
      constructor <;> intro uri
      · simp only [mem_uris_record, mem_uris_foldl_record, or_right_comm, imp_self]
      · simp only [contains_record, contains_foldl_record, or_right_comm, imp_self]
    have late : (between.foldl Ledger.record (l.record declaration)).Within
        ((between.foldl Ledger.record l).record declaration) := by
      constructor <;> intro uri
      · simp only [mem_uris_record, mem_uris_foldl_record, or_right_comm, imp_self]
      · simp only [contains_record, contains_foldl_record, or_right_comm, imp_self]
    rw [taken_append, allAfter, taken_congr early late]
    constructor
    · exact List.perm_middle
    · simp only [List.filterMap_append, List.filterMap_cons, noCall]
  · rw [taken_append, all]
    exact ⟨List.Perm.refl _, rfl⟩

end Ledger

end RevisionGraph
