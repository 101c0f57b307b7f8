import RevisionGraph.Proofs.CallGraph.History
import RevisionGraph.Proofs.CallGraph.Moves
import RevisionGraph.Proofs.Document.Acceptance

/-!
# Call sites with several spellings

An id of a document may be spelled in several ways. The decoder adds up the call sites of entries
with one pair as `CallGraph.addCall` does; but of the call sites of one entry that are spelled
differently and have one id it takes the last (`Document.decodeCalls_adds`).
-/

namespace RevisionGraph

open Json (Metadata)

namespace Document

/-- What a call entry says once its ids are read: call sites are in the order of their keys. -/
structure CallRow where
  pair : CallPair
  sites : List (Int64 × Metadata)

structure CallEntry.Tells (e : CallEntry) (row : CallRow) : Prop where
  caller : readId? e.caller = some row.pair.caller
  callee : readId? e.callee = some row.pair.callee
  sites : List.Forall₂ (fun entry site => readId? entry.1 = some site.1 ∧ entry.2 = site.2)
    e.sites.toList row.sites

/-- No two call sites of an entry have one id, however it is spelled. -/
def CallEntry.SpellsOnce (e : CallEntry) : Prop := (e.sites.keys.map readId?).Nodup

theorem CallEntry.Tells.nodup {e : CallEntry} {row : CallRow} (told : e.Tells row)
    (once : e.SpellsOnce) : (row.sites.map Prod.fst).Nodup := by
  have ids : e.sites.keys.map readId? = (row.sites.map Prod.fst).map some := by
    rw [SortedMap.keys, List.map_map, List.map_map]
    exact map_eq_map_of_forall₂ (fun _ _ both => both.1) told.sites
  unfold SpellsOnce at once
  rw [ids] at once
  exact once.of_map some

namespace CallRow

/-- Adds the calls of a row one by one. Without call sites only its pair is added. -/
def add (relation : Relation) (g : CallGraph) (row : CallRow) : CallGraph :=
  match row.sites with
  | [] => g.addSites relation row.pair ∅
  | sites => sites.foldl (fun g site => g.addCall relation row.pair site.1 site.2) g

def addAll (relation : Relation) (rows : List CallRow) : CallMap :=
  (rows.foldl (add relation) ∅).get relation

/-- The call sites of a row, with the metadata of those that have one id merged. -/
def merged (row : CallRow) : CallSites :=
  row.sites.foldl (fun held site => held.mergeSite site.1 site.2) ∅

/-- The row without the call sites that come again later. -/
def lastSpelled (row : CallRow) : CallRow := { row with sites := lastOfEach row.sites }

/-- A call site of the row has metadata under the key. -/
def Supplies (row : CallRow) (pair : CallPair) (site : Int64) (key : String) : Prop :=
  row.pair = pair ∧ ∃ metadata, (site, metadata) ∈ row.sites ∧ metadata.contains key

end CallRow

end Document

open Document

/-! ### Calls one by one -/

theorem CallSites.foldl_mergeSite_of_new {sites : CallSites} {entries : List (Int64 × Metadata)}
    (distinct : (entries.map Prod.fst).Nodup)
    (new : ∀ entry ∈ entries, sites.get? entry.1 = none) :
    entries.foldl (fun sites entry => sites.mergeSite entry.1 entry.2) sites =
      sites.insertMany entries := by
  induction entries generalizing sites with
  | nil => rfl
  | cons head rest ih =>
    obtain ⟨absent, others⟩ := List.nodup_cons.1 distinct
    obtain ⟨first, later⟩ := List.forall_mem_cons.1 new
    have inserted : sites.mergeSite head.1 head.2 = sites.insert head.1 head.2 := by
      unfold CallSites.mergeSite
      rw [first, Option.getD_none, SortedMap.empty_union]
    rw [List.foldl_cons, SortedMap.insertMany_cons, inserted]
    apply ih others
    intro entry mem
    have apart : entry.1 ≠ head.1 := fun same => absent (same ▸ List.mem_map_of_mem mem)
    rw [SortedMap.get?_insert, if_neg apart, later entry mem]

theorem CallGraph.addSites_addSites (g : CallGraph) (relation : Relation) (pair : CallPair)
    (sites added : CallSites) :
    (g.addSites relation pair sites).addSites relation pair added =
      g.addSites relation pair (sites.merge added) := by
  apply ext_sites?
  intro relation' pair'
  simp only [sites?_addSites]
  split
  · simp only [and_self, if_true, Option.getD_some, CallSites.merge_assoc]
  · rfl

namespace Document.CallRow

theorem foldl_addCall (g : CallGraph) (relation : Relation) (pair : CallPair) (held : CallSites)
    (sites : List (Int64 × Metadata)) :
    sites.foldl (fun g site => g.addCall relation pair site.1 site.2)
        (g.addSites relation pair held) =
      g.addSites relation pair
        (sites.foldl (fun held site => held.mergeSite site.1 site.2) held) := by
  induction sites generalizing held with
  | nil => rfl
  | cons site sites ih =>
    rw [List.foldl_cons, List.foldl_cons, CallGraph.addCall, CallGraph.addSites_addSites]
    exact ih _

/-- To add calls one by one is to add their merged call sites. -/
theorem add_eq (relation : Relation) (g : CallGraph) (row : CallRow) :
    add relation g row = g.addSites relation row.pair row.merged := by
  unfold add merged
  split <;> rename_i sites
  · rw [sites]
    rfl
  · cases listed : row.sites with
    | nil => exact absurd listed sites
    | cons site rest =>
      have single : (∅ : CallSites).mergeSite site.1 site.2 =
          SortedMap.empty.insert site.1 site.2 :=
        congrArg (SortedMap.insert _ site.1) (SortedMap.empty_union site.2)
      rw [List.foldl_cons, List.foldl_cons, CallGraph.addCall, foldl_addCall, single]

theorem addAll_eq (relation : Relation) (rows : List CallRow) :
    addAll relation rows =
      rows.foldl (fun calls row => CallMap.merge calls row.pair row.merged) ∅ := by
  have walk (g : CallGraph) : (rows.foldl (add relation) g).get relation =
      rows.foldl (fun calls row => CallMap.merge calls row.pair row.merged) (g.get relation) := by
    induction rows generalizing g with
    | nil => rfl
    | cons row rows ih =>
      rw [List.foldl_cons, List.foldl_cons, ih, add_eq, CallGraph.addSites, CallGraph.get_set]
  have start : (∅ : CallGraph).get relation = ∅ := by cases relation <;> rfl
  unfold addAll
  rw [walk, start]

theorem merged_lastSpelled (row : CallRow) : row.lastSpelled.merged = .ofList row.sites := by
  rw [← SortedMap.ofList_lastOfEach]
  exact CallSites.foldl_mergeSite_of_new (nodup_keys_lastOfEach row.sites) fun _ _ => rfl

theorem lastSpelled_of_nodup {row : CallRow} (once : (row.sites.map Prod.fst).Nodup) :
    row.lastSpelled = row := by
  unfold lastSpelled
  rw [lastOfEach_of_nodup once]

/-! ### Keys of metadata -/

/-- A key is held after call sites are merged just if it was held or is added. -/
theorem isSome_valueAt_merge (calls : CallMap) (pair : CallPair) (added : CallSites)
    (other : CallPair) (site : Int64) (key : String) :
    (CallGraph.valueAt ((CallMap.merge calls pair added).get? other) site key).isSome ↔
      (CallGraph.valueAt (calls.get? other) site key).isSome ∨
        pair = other ∧ (CallGraph.valueAt (some added) site key).isSome := by
  rw [CallMap.get?_merge]
  by_cases here : other = pair
  · have joined : CallGraph.valueAt (some (((calls.get? pair).getD ∅).merge added)) site key =
        (CallGraph.valueAt (some added) site key).or
          (CallGraph.valueAt (calls.get? pair) site key) :=
      CallGraph.valueAt_merged (calls.get? pair) (some added) site key
    rw [if_pos here, here, joined, Option.isSome_or, Bool.or_eq_true, or_comm, and_iff_right rfl]
  · rw [if_neg here]
    simp [Ne.symm here]

theorem isSome_valueAt_foldl (rows : List CallRow) (calls : CallMap) (pair : CallPair)
    (site : Int64) (key : String) :
    (CallGraph.valueAt ((rows.foldl (fun calls row =>
        CallMap.merge calls row.pair (.ofList row.sites)) calls).get? pair) site key).isSome ↔
      (CallGraph.valueAt (calls.get? pair) site key).isSome ∨
        ∃ row ∈ rows, row.lastSpelled.Supplies pair site key := by
  have supplies (row : CallRow) :
      (row.pair = pair ∧ (CallGraph.valueAt (some (.ofList row.sites)) site key).isSome) ↔
        row.lastSpelled.Supplies pair site key := by
    apply and_congr_right
    intro _
    show (((SortedMap.ofList row.sites).get? site).bind fun metadata => metadata.get? key).isSome ↔
      ∃ metadata, (site, metadata) ∈ lastOfEach row.sites ∧ (metadata.get? key).isSome
    simp only [Option.isSome_iff_exists, Option.bind_eq_some_iff, SortedMap.get?_ofList_eq_some_iff]
    exact ⟨fun ⟨value, metadata, mem, held⟩ => ⟨metadata, mem, value, held⟩,
      fun ⟨metadata, mem, value, held⟩ => ⟨value, metadata, mem, held⟩⟩
  induction rows generalizing calls with
  | nil => simp
  | cons row rows ih =>
    refine (ih _).trans ?_
    rw [isSome_valueAt_merge, supplies, List.exists_mem_cons_iff, or_assoc]

end CallRow

/-! ### Decoding -/

theorem exists_tells_iff {e : CallEntry} : (∃ row, e.Tells row) ↔ e.Acceptable := by
  have named (entry : String × Metadata) :
      (∃ site : Int64 × Metadata, readId? entry.1 = some site.1 ∧ entry.2 = site.2) ↔
        NamesId entry.1 :=
    ⟨fun ⟨site, read, _⟩ => ⟨site.1, read⟩, fun ⟨id, read⟩ => ⟨(id, entry.2), read, rfl⟩⟩
  have sites : (∃ sites : List (Int64 × Metadata), List.Forall₂
      (fun entry site => readId? entry.1 = some site.1 ∧ entry.2 = site.2) e.sites.toList sites) ↔
        ∀ key ∈ e.sites.keys, NamesId key := by
    simp only [exists_forall₂_iff, named, SortedMap.keys, List.forall_mem_map]
  constructor
  · rintro ⟨row, caller, callee, told⟩
    exact ⟨⟨_, caller⟩, ⟨_, callee⟩, sites.1 ⟨_, told⟩⟩
  · rintro ⟨⟨caller, callerRead⟩, ⟨callee, calleeRead⟩, named⟩
    obtain ⟨listed, told⟩ := sites.2 named
    exact ⟨⟨⟨caller, callee⟩, listed⟩, callerRead, calleeRead, told⟩

theorem decodeCall_of_tells {e : CallEntry} {row : CallRow} (told : e.Tells row) (path : FieldPath)
    (calls : CallMap) :
    decodeCall path calls e = .ok (CallMap.merge calls row.pair (.ofList row.sites)) := by
  have sites : decodeSites path e.sites = .ok (.ofList row.sites) := by
    unfold decodeSites
    refine bind_eq_ok_iff.2 ⟨row.sites, mapM_eq_ok_iff.2 (told.sites.imp ?_), rfl⟩
    rintro entry ⟨id, metadata⟩ ⟨read, rfl⟩
    exact bind_eq_ok_iff.2 ⟨id, decodeId_eq_ok_iff.2 read, rfl⟩
  unfold decodeCall
  rw [decodeId_eq_ok_iff.2 told.caller, decodeId_eq_ok_iff.2 told.callee, sites]
  rfl

theorem decodeCalls_of_tells {entries : List CallEntry} {rows : List CallRow}
    (told : List.Forall₂ CallEntry.Tells entries rows) (relation : Relation) :
    decodeCalls relation entries =
      .ok (rows.foldl (fun calls row => CallMap.merge calls row.pair (.ofList row.sites)) ∅) := by
  unfold decodeCalls
  generalize (∅ : CallMap) = calls
  induction told generalizing calls with
  | nil => rfl
  | cons first _ ih =>
    rw [List.foldlM_cons, decodeCall_of_tells first, ok_bind, List.foldl_cons]
    exact ih _

/-- Calls whose ids can all be read are decoded as if each of them was added by itself, but for the
call sites of an entry that are spelled again later in it. These are left out, and with them the
keys of their metadata; if there are none then no key is lost. -/
theorem decodeCalls_adds (relation : Relation) {entries : List CallEntry}
    (all : ∀ e ∈ entries, e.Acceptable) :
    ∃ rows calls, List.Forall₂ CallEntry.Tells entries rows ∧
      decodeCalls relation entries = .ok calls ∧
      calls = CallRow.addAll relation (rows.map CallRow.lastSpelled) ∧
      (∀ pair site key, (CallGraph.valueAt (calls.get? pair) site key).isSome ↔
        ∃ row ∈ rows, row.lastSpelled.Supplies pair site key) ∧
      ((∀ e ∈ entries, e.SpellsOnce) →
        calls = CallRow.addAll relation rows ∧
        ∀ pair site key, (CallGraph.valueAt (calls.get? pair) site key).isSome ↔
          ∃ row ∈ rows, row.Supplies pair site key) := by
  obtain ⟨rows, told⟩ := exists_forall₂_iff.2 fun e mem => exists_tells_iff.2 (all e mem)
  have added : rows.foldl (fun calls row => CallMap.merge calls row.pair (.ofList row.sites)) ∅ =
      CallRow.addAll relation (rows.map CallRow.lastSpelled) := by
    rw [CallRow.addAll_eq, List.foldl_map]
    simp only [CallRow.merged_lastSpelled]
    rfl
  have held (pair : CallPair) (site : Int64) (key : String) :=
    (CallRow.isSome_valueAt_foldl rows ∅ pair site key).trans (or_iff_right Bool.false_ne_true)
  refine ⟨rows, _, told, decodeCalls_of_tells told relation, added, held, ?_⟩
  intro once
  have whole (row : CallRow) (mem : row ∈ rows) : row.lastSpelled = row := by
    obtain ⟨e, given, tells⟩ := exists_mem_of_forall₂ told mem
    exact CallRow.lastSpelled_of_nodup (tells.nodup (once e given))
  have same : rows.map CallRow.lastSpelled = rows :=
    (List.map_congr_left whole).trans (List.map_id rows)
  refine ⟨added.trans (congrArg _ same), fun pair site key => (held pair site key).trans ?_⟩
  exact exists_congr fun row => and_congr_right fun mem => by rw [whole row mem]

def respelled : List CallEntry :=
  [⟨"0", "1", .ofList [("05", .ofList [("line", .int 3)])]⟩, ⟨"2", "1", ∅⟩,
    ⟨"00", "1", .ofList [("5", .ofList [("type", .text "static")]), ("6", ∅)]⟩]

theorem decodeCalls_adds_respelled :
    (∀ e ∈ respelled, e.Acceptable) ∧ (∀ e ∈ respelled, e.SpellsOnce) ∧
      ∃ rows, List.Forall₂ CallEntry.Tells respelled rows ∧
        decodeCalls .external respelled = .ok (CallRow.addAll .external rows) := by
  have names (e : CallEntry) (mem : e ∈ respelled) : (readId? e.caller).isSome ∧
      (readId? e.callee).isSome ∧ ∀ key ∈ e.sites.keys, (readId? key).isSome := by
    revert e
    decide +kernel
  have all (e : CallEntry) (mem : e ∈ respelled) : e.Acceptable := by
    obtain ⟨caller, callee, sites⟩ := names e mem
    exact ⟨Option.isSome_iff_exists.1 caller, Option.isSome_iff_exists.1 callee,
      fun key mem => Option.isSome_iff_exists.1 (sites key mem)⟩
  have once : ∀ e ∈ respelled, e.SpellsOnce := by
    unfold CallEntry.SpellsOnce
    decide +kernel
  obtain ⟨rows, calls, told, decoded, _, _, whole⟩ := decodeCalls_adds .external all
  exact ⟨all, once, rows, told, (whole once).1 ▸ decoded⟩

/-- The call sites of one entry are not merged: the last spelling of an id takes the place of the
one before. -/
theorem not_decodeCalls_adds :
    ¬∀ (relation : Relation) (entries : List CallEntry) (rows : List CallRow),
      List.Forall₂ CallEntry.Tells entries rows →
      decodeCalls relation entries = .ok (CallRow.addAll relation rows) := by
  intro all
  let first : Metadata := .ofList [("line", .int 3)]
  let second : Metadata := .ofList [("type", .text "static")]
  let entry : CallEntry := ⟨"0", "1", .ofList [("05", first), ("5", second)]⟩
  let row : CallRow := ⟨⟨0, 1⟩, [(5, first), (5, second)]⟩
  have told : entry.Tells row := by
    refine ⟨by decide +kernel, by decide +kernel, ?_⟩
    rw [SortedMap.toList_ofList (by unfold Ascending; decide +kernel)]
    exact .cons ⟨by decide +kernel, rfl⟩ (.cons ⟨by decide +kernel, rfl⟩ .nil)
  have same := all .internal [entry] [row] (.cons told .nil)
  let keys (calls : CallMap) := (calls.get? ⟨0, 1⟩).map fun sites =>
    (sites.get? 5).map SortedMap.keys
  have decoded : (decodeCalls .internal [entry]).toOption.map keys =
      some (some (some ["type"])) := by decide +kernel
  have added : keys (CallRow.addAll .internal [row]) = some (some ["line", "type"]) := by
    decide +kernel
  rw [same] at decoded
  exact absurd (added.symm.trans (Option.some.inj decoded)) (by decide)

end Document

end RevisionGraph
