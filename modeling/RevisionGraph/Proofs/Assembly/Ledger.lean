import Mathlib.Algebra.Group.Nat.Defs
import Mathlib.Data.List.Range
import RevisionGraph.Proofs.Assembly.Entry
import RevisionGraph.Proofs.MethodTable.Rows

/-!
# Ledgers

A `Ledger` is what an assembler has been told, without the places where the assembler keeps it: the
declared types, the methods in the order in which they were met, and the calls. Where each of them
belongs follows from the ledger (`Ledger.scopeOf?`, `Ledger.relationOf`), so nothing ever moves.
-/

namespace RevisionGraph

structure Ledger where
  /-- The declared types, without their methods. -/
  types : SortedMap Uri TypeDecl
  /-- The methods in the order in which they were met, each with the number of those before it. -/
  rows : List (Int64 × Method)
  calls : List Call

namespace Ledger

def empty : Ledger := ⟨∅, [], []⟩

def uris (l : Ledger) : List Uri := l.rows.map fun row => row.2.uri

/-! ### Taking in an entry -/

def declare (l : Ledger) (uri : Uri) (header : TypeDecl) : Ledger :=
  { l with types := l.types.insert uri header }

/-- A type that is declared already stays as it is. -/
def declareNew (l : Ledger) (uri : Uri) : Ledger :=
  if l.types.contains uri then l else l.declare uri .placeholder

def enrol (l : Ledger) (method : Method) : Ledger :=
  if method.uri ∈ l.uris then l
  else { l with rows := l.rows ++ [(Int64.ofNat l.rows.length, method)] }

def note (l : Ledger) (call : Call) : Ledger := { l with calls := l.calls ++ [call] }

def record (l : Ledger) : Entry → Ledger
  | .type uri header => l.declare uri header
  | .method method =>
    match method.uri.home? with
    | some home => (l.declareNew home).enrol method
    | none => l
  | .call call => (l.enrol (.plain call.callee)).note call

theorem record_method {method : Method} {home : Uri} (homed : method.uri.home? = some home)
    (l : Ledger) : l.record (.method method) = (l.declareNew home).enrol method := by
  simp only [record, homed]

/-! ### What follows from a ledger -/

def rowsOf (l : Ledger) (home : Uri) : List (Int64 × Method) :=
  l.rows.filter fun row => decide (row.2.uri.home? = some home)

def typeOf (l : Ledger) (home : Uri) : TypeDecl :=
  { (l.types.get? home).getD .placeholder with methods := .ofList (l.rowsOf home) }

/-- A type is internal if it is declared, and external if it is not but has methods. -/
def scopeOf? (l : Ledger) (home : Uri) : Option Scope :=
  if l.types.contains home then some .internal
  else if l.rowsOf home = [] then none
  else some .external

def isDeclared (l : Ledger) (method : Uri) : Bool :=
  (method.home?.map l.types.contains).getD false

/-- Whether an entry is taken in: the caller of a call has to be a method of a declared type, and
methods need to have a type. -/
def takes (l : Ledger) : Entry → Bool
  | .type .. => true
  | .method method => method.uri.home?.isSome
  | .call call =>
    decide (call.caller ∈ l.uris) && l.isDeclared call.caller && call.callee.home?.isSome

def relationOf (l : Ledger) (callee : Uri) : Relation :=
  if l.isDeclared callee then .internal else .external

def idOf? (l : Ledger) (uri : Uri) : Option Int64 :=
  (l.rows.find? fun row => decide (row.2.uri = uri)).map Prod.fst

/-- What an entry is answered with: a method with its id. -/
def answer? (l : Ledger) : Entry → Option Int64
  | .method method => l.idOf? method.uri
  | .type .. | .call _ => none

def addSite (sites : Option CallSites) (call : Call) : Option CallSites :=
  some ((sites.getD ∅).merge (SortedMap.empty.insert call.site call.metadata))

/-- The sites of all calls between two methods. -/
def sites? (l : Ledger) (caller callee : Uri) : Option CallSites :=
  (l.calls.filter fun call => decide (call.caller = caller ∧ call.callee = callee)).foldl addSite
    none

def pairSites? (l : Ledger) (relation : Relation) (pair : CallPair) : Option CallSites := do
  let caller ← lookupEntry pair.caller l.rows
  let callee ← lookupEntry pair.callee l.rows
  if relation = l.relationOf callee.uri then l.sites? caller.uri callee.uri else none

/-! ### Sound ledgers -/

/-- Ids count the methods, no method is met twice, each has a type, and each call joins methods that
were met before, the first of them of a declared type. -/
structure Sound (l : Ledger) : Prop where
  numbered : l.rows.map Prod.fst = (List.range l.rows.length).map Int64.ofNat
  uris : l.uris.Nodup
  homes : ∀ row ∈ l.rows, ∃ home, row.2.uri.home? = some home
  callers : ∀ call ∈ l.calls, call.caller ∈ l.uris ∧ l.isDeclared call.caller
  callees : ∀ call ∈ l.calls, call.callee ∈ l.uris

theorem sound_empty : Sound .empty where
  numbered := rfl
  uris := List.nodup_nil
  homes := by simp [empty]
  callers := by simp [empty]
  callees := by simp [empty]

theorem ofNat_injOn {m n : Nat} (left : m < 2 ^ 63) (right : n < 2 ^ 63)
    (same : Int64.ofNat m = Int64.ofNat n) : m = n := by
  have ints := congrArg Int64.toInt same
  rw [Int64.toInt_ofNat_of_lt left, Int64.toInt_ofNat_of_lt right] at ints
  omega

theorem Sound.distinct {l : Ledger} (sound : l.Sound) (few : l.rows.length < 2 ^ 63) :
    MethodTable.DistinctRows l.rows := by
  refine ⟨?_, sound.uris⟩
  rw [sound.numbered]
  apply List.Nodup.map_on _ List.nodup_range
  intro m left n right same
  rw [List.mem_range] at left right
  exact ofNat_injOn (by omega) (by omega) same

/-- The number of the rows is not yet an id. -/
theorem Sound.id_ne_next {l : Ledger} (sound : l.Sound) (few : l.rows.length < 2 ^ 63)
    {row : Int64 × Method} (mem : row ∈ l.rows) : row.1 ≠ Int64.ofNat l.rows.length := by
  obtain ⟨count, small, numbered⟩ := List.mem_map.1 (sound.numbered ▸ List.mem_map_of_mem mem)
  rw [List.mem_range] at small
  rw [← numbered]
  intro same
  have := ofNat_injOn (by omega) few same
  omega

theorem Sound.distinctOf {l : Ledger} (sound : l.Sound) (few : l.rows.length < 2 ^ 63)
    (home : Uri) : MethodTable.DistinctRows (l.rowsOf home) :=
  (sound.distinct few).sublist List.filter_sublist

theorem mem_rowsOf_iff {l : Ledger} {home : Uri} {row : Int64 × Method} :
    row ∈ l.rowsOf home ↔ row ∈ l.rows ∧ row.2.uri.home? = some home := by
  unfold rowsOf
  rw [List.mem_filter, decide_eq_true_eq]

theorem mem_uris_iff {l : Ledger} {uri : Uri} : uri ∈ l.uris ↔ ∃ row ∈ l.rows, row.2.uri = uri :=
  List.mem_map

theorem Sound.idOf?_of_row {l : Ledger} (sound : l.Sound) {row : Int64 × Method}
    (held : row ∈ l.rows) : l.idOf? row.2.uri = some row.1 := by
  unfold idOf?
  cases found : l.rows.find? fun other => decide (other.2.uri = row.2.uri) with
  | none => exact absurd (decide_eq_true rfl) (List.find?_eq_none.1 found row held)
  | some other =>
    have same : other.2.uri = row.2.uri := by simpa using List.find?_some found
    rw [List.inj_on_of_nodup_map sound.uris (List.mem_of_find?_eq_some found) held same]
    rfl

/-- A method that was met keeps its id if rows are added. -/
theorem idOf?_of_more_rows {l l' : Ledger} (more : l.rows <+: l'.rows) {uri : Uri}
    (met : uri ∈ l.uris) : l'.idOf? uri = l.idOf? uri := by
  obtain ⟨added, rows⟩ := more
  obtain ⟨row, held, same⟩ := mem_uris_iff.1 met
  unfold idOf?
  rw [← rows, List.find?_append]
  cases found : l.rows.find? fun row => decide (row.2.uri = uri) with
  | none => exact absurd (decide_eq_true same) (List.find?_eq_none.1 found row held)
  | some row => rfl

theorem isDeclared_iff {l : Ledger} {method : Uri} :
    l.isDeclared method ↔ ∃ home, method.home? = some home ∧ l.types.contains home := by
  unfold isDeclared
  cases method.home? with
  | none => simp
  | some home => simp

theorem takes_call_iff {l : Ledger} {call : Call} :
    l.takes (.call call) ↔ call.caller ∈ l.uris ∧ l.isDeclared call.caller ∧
      ∃ home, call.callee.home? = some home := by
  unfold takes
  rw [Bool.and_eq_true, Bool.and_eq_true, decide_eq_true_eq, Option.isSome_iff_exists, and_assoc]

theorem isDeclared_of_home {l : Ledger} {method home : Uri} (homed : method.home? = some home) :
    l.isDeclared method = l.types.contains home := by
  unfold isDeclared
  rw [homed]
  rfl

/-! ### Declaring a type -/

theorem contains_declare (l : Ledger) (uri : Uri) (header : TypeDecl) (other : Uri) :
    (l.declare uri header).types.contains other =
      (decide (other = uri) || l.types.contains other) := by
  unfold SortedMap.contains declare
  rw [SortedMap.get?_insert]
  by_cases same : other = uri
  · simp [same]
  · simp [same]

theorem isDeclared_mono {l : Ledger} {uri method : Uri} {header : TypeDecl}
    (before : l.isDeclared method) : (l.declare uri header).isDeclared method := by
  obtain ⟨home, homed, declared⟩ := isDeclared_iff.1 before
  refine isDeclared_iff.2 ⟨home, homed, ?_⟩
  rw [contains_declare, declared, Bool.or_true]

theorem rowsOf_declare (l : Ledger) (uri : Uri) (header : TypeDecl) (home : Uri) :
    (l.declare uri header).rowsOf home = l.rowsOf home := rfl

theorem Sound.declare {l : Ledger} (sound : l.Sound) (uri : Uri) (header : TypeDecl) :
    (l.declare uri header).Sound where
  numbered := sound.numbered
  uris := sound.uris
  homes := sound.homes
  callers call mem := (sound.callers call mem).imp_right isDeclared_mono
  callees := sound.callees

theorem declareNew_of_declared {l : Ledger} {uri : Uri} (declared : l.types.contains uri) :
    l.declareNew uri = l := if_pos declared

theorem declareNew_of_new {l : Ledger} {uri : Uri} (new : l.types.contains uri = false) :
    l.declareNew uri = l.declare uri .placeholder := if_neg (by simp [new])

theorem Sound.declareNew {l : Ledger} (sound : l.Sound) (uri : Uri) : (l.declareNew uri).Sound := by
  unfold Ledger.declareNew
  split
  · exact sound
  · exact sound.declare uri .placeholder

theorem contains_declareNew (l : Ledger) (uri : Uri) : (l.declareNew uri).types.contains uri := by
  cases declared : l.types.contains uri with
  | true => rwa [declareNew_of_declared declared]
  | false =>
    rw [declareNew_of_new declared, contains_declare]
    simp

theorem rows_declareNew (l : Ledger) (uri : Uri) : (l.declareNew uri).rows = l.rows := by
  unfold declareNew
  split <;> rfl

/-! ### Enrolling a method -/

theorem enrol_of_mem {l : Ledger} {method : Method} (mem : method.uri ∈ l.uris) :
    l.enrol method = l := if_pos mem

theorem rows_enrol_of_new {l : Ledger} {method : Method} (new : method.uri ∉ l.uris) :
    (l.enrol method).rows = l.rows ++ [(Int64.ofNat l.rows.length, method)] := by
  unfold enrol
  rw [if_neg new]

theorem types_enrol (l : Ledger) (method : Method) : (l.enrol method).types = l.types := by
  unfold enrol
  split <;> rfl

theorem calls_enrol (l : Ledger) (method : Method) : (l.enrol method).calls = l.calls := by
  unfold enrol
  split <;> rfl

theorem isDeclared_enrol (l : Ledger) (method : Method) (uri : Uri) :
    (l.enrol method).isDeclared uri = l.isDeclared uri := by
  unfold isDeclared
  rw [types_enrol]

theorem mem_uris_enrol {l : Ledger} {method : Method} {uri : Uri} :
    uri ∈ (l.enrol method).uris ↔ uri ∈ l.uris ∨ uri = method.uri := by
  by_cases mem : method.uri ∈ l.uris
  · rw [enrol_of_mem mem]
    exact ⟨.inl, fun either => either.elim id fun same => same ▸ mem⟩
  · unfold uris
    rw [rows_enrol_of_new mem, List.map_append, List.mem_append]
    simp

theorem rows_prefix_enrol (l : Ledger) (method : Method) : l.rows <+: (l.enrol method).rows := by
  by_cases met : method.uri ∈ l.uris
  · exact (enrol_of_mem met).symm ▸ List.prefix_rfl
  · rw [rows_enrol_of_new met]
    exact List.prefix_append _ _

theorem rows_prefix_record (l : Ledger) (entry : Entry) : l.rows <+: (l.record entry).rows := by
  cases entry with
  | type => exact List.prefix_rfl
  | method method =>
    cases homed : method.uri.home? with
    | none =>
      simp only [record, homed]
      exact List.prefix_rfl
    | some home =>
      have enrolled := (l.declareNew home).rows_prefix_enrol method
      rwa [rows_declareNew, ← record_method homed] at enrolled
  | call call => exact l.rows_prefix_enrol (.plain call.callee)

theorem length_enrol_le (l : Ledger) (method : Method) :
    (l.enrol method).rows.length ≤ l.rows.length + 1 := by
  by_cases mem : method.uri ∈ l.uris
  · rw [enrol_of_mem mem]
    omega
  · rw [rows_enrol_of_new mem, List.length_append]
    exact Nat.le_refl _

theorem nodup_uris_enrol {l : Ledger} (distinct : l.uris.Nodup) (method : Method) :
    (l.enrol method).uris.Nodup := by
  by_cases mem : method.uri ∈ l.uris
  · rwa [enrol_of_mem mem]
  · unfold uris
    rw [rows_enrol_of_new mem, List.map_append]
    exact List.nodup_append'.2
      ⟨distinct, List.nodup_singleton _, List.disjoint_singleton.2 mem⟩

theorem Sound.enrol {l : Ledger} (sound : l.Sound) (method : Method) {home : Uri}
    (homed : method.uri.home? = some home) : (l.enrol method).Sound := by
  by_cases mem : method.uri ∈ l.uris
  · rwa [enrol_of_mem mem]
  have rows := rows_enrol_of_new mem
  constructor
  · rw [rows, List.map_append, sound.numbered, List.length_append, List.length_singleton,
      List.range_succ, List.map_append]
    rfl
  · exact nodup_uris_enrol sound.uris method
  · intro row held
    rw [rows, List.mem_append, List.mem_singleton] at held
    rcases held with held | rfl
    · exact sound.homes row held
    · exact ⟨home, homed⟩
  · intro call held
    rw [calls_enrol] at held
    obtain ⟨met, declared⟩ := sound.callers call held
    exact ⟨mem_uris_enrol.2 (.inl met), (isDeclared_enrol l method _).trans declared⟩
  · intro call held
    rw [calls_enrol] at held
    exact mem_uris_enrol.2 (.inl (sound.callees call held))

/-! ### Noting a call -/

theorem Sound.note {l : Ledger} (sound : l.Sound) {call : Call}
    (caller : call.caller ∈ l.uris) (declared : l.isDeclared call.caller)
    (callee : call.callee ∈ l.uris) : (l.note call).Sound := by
  refine ⟨sound.numbered, sound.uris, sound.homes, ?_, ?_⟩
  · intro other held
    rcases List.mem_append.1 held with held | held
    · exact sound.callers other held
    · rw [List.mem_singleton.1 held]
      exact ⟨caller, declared⟩
  · intro other held
    rcases List.mem_append.1 held with held | held
    · exact sound.callees other held
    · rw [List.mem_singleton.1 held]
      exact callee

theorem sites?_note (l : Ledger) (call : Call) (caller callee : Uri) :
    (l.note call).sites? caller callee =
      if call.caller = caller ∧ call.callee = callee then addSite (l.sites? caller callee) call
      else l.sites? caller callee := by
  unfold sites? note
  rw [List.filter_append, List.foldl_append]
  split <;> rename_i here
  · simp [here]
  · simp only [List.filter_cons, here, decide_false, Bool.false_eq_true, if_false, List.filter_nil,
      List.foldl_nil]

theorem sites?_eq_none {l : Ledger} {caller callee : Uri}
    (absent : ∀ call ∈ l.calls, ¬(call.caller = caller ∧ call.callee = callee)) :
    l.sites? caller callee = none := by
  have nothing : (l.calls.filter fun call =>
      decide (call.caller = caller ∧ call.callee = callee)) = [] :=
    List.filter_eq_nil_iff.2 fun call mem => by simpa using absent call mem
  unfold sites?
  rw [nothing]
  rfl

theorem exists_call_of_sites? {l : Ledger} {caller callee : Uri} {sites : CallSites}
    (held : l.sites? caller callee = some sites) :
    ∃ call ∈ l.calls, call.caller = caller ∧ call.callee = callee := by
  by_contra absent
  rw [sites?_eq_none fun call mem same => absent ⟨call, mem, same⟩] at held
  cases held

end Ledger

end RevisionGraph
