import RevisionGraph.Proofs.Assembly.Run
import RevisionGraph.Proofs.Hierarchy.Methods
import RevisionGraph.Proofs.Revision.Checks

/-!
# Ids of assembled methods

An assembler gives out the ids from 0 on, each of them once over all types, and no method is lost or
stands in two types. So the methods of a finished revision are all found by their ids.
-/

namespace RevisionGraph

namespace Ledger

variable {l : Ledger} {a : Assembler}

theorem Describes.homed (d : l.Describes a) (sound : l.Sound) (few : l.rows.length < 2 ^ 63) :
    a.hierarchy.Homed := by
  intro scope uri type id method held row
  obtain ⟨_, rfl⟩ := d.type?_eq_some_iff.1 held
  exact (mem_rowsOf_iff.1 ((MethodTable.get?_ofList (sound.distinctOf few uri)).1 row)).2

/-- The types hold the rows of the ledger between them. -/
theorem Describes.perm_allMethods (d : l.Describes a) (sound : l.Sound)
    (few : l.rows.length < 2 ^ 63) : a.hierarchy.allMethods.Perm l.rows := by
  have listed := (d.homed sound few).nodup_allMethods d.partitioned
  rw [List.perm_ext_iff_of_nodup listed ((sound.distinct few).ids.of_map _)]
  rintro ⟨id, method⟩
  rw [Hierarchy.mem_allMethods_iff]
  simp only [d.mem_methods_iff sound few, exists_and_left, exists_eq, and_true]

theorem Describes.perm_ids (d : l.Describes a) (sound : l.Sound) (few : l.rows.length < 2 ^ 63) :
    (a.hierarchy.allMethods.map Prod.fst).Perm
      ((List.range l.rows.length).map Int64.ofNat) :=
  sound.numbered ▸ (d.perm_allMethods sound few).map Prod.fst

end Ledger

theorem mem_numbers_iff {count : Nat} (few : count < 2 ^ 63) {id : Int64} :
    id ∈ (List.range count).map Int64.ofNat ↔ 0 ≤ id ∧ id < Int64.ofNat count := by
  rw [List.mem_map, Int64.le_iff_toInt_le, Int64.lt_iff_toInt_lt, Int64.toInt_ofNat_of_lt few]
  constructor
  · rintro ⟨n, small, rfl⟩
    rw [List.mem_range] at small
    rw [Int64.toInt_ofNat_of_lt (by omega)]
    exact ⟨by simp, by omega⟩
  · rintro ⟨nonneg, below⟩
    have nonneg : 0 ≤ id.toInt := nonneg
    refine ⟨id.toInt.toNat, List.mem_range.2 (by omega), ?_⟩
    apply Int64.toInt_inj.1
    rw [Int64.toInt_ofNat_of_lt (by omega)]
    omega

namespace Assembler

open Ledger

/-- Each id below the next one belongs to one method, and each method to the type that its URI
names. -/
structure Numbered (a : Assembler) : Prop where
  distinct : (a.hierarchy.allMethods.map Prod.fst).Nodup
  range : ∀ id, id ∈ a.hierarchy.allMethods.map Prod.fst ↔ 0 ≤ id ∧ id < a.nextId
  oneType : ∀ scope scope' home home' type type' id id' method method',
    a.hierarchy.type? scope home = some type → type.methods.get? id = some method →
    a.hierarchy.type? scope' home' = some type' → type'.methods.get? id' = some method' →
    method.uri = method'.uri → scope = scope' ∧ home = home' ∧ id = id'
  stored : ∀ scope home type id method, a.hierarchy.type? scope home = some type →
    type.methods.get? id = some method → method.typeUri = .ok home
  count : a.nodeCount.toNat = a.hierarchy.methodCount

theorem numbered_of_describes {l : Ledger} {a : Assembler} (d : l.Describes a) (sound : l.Sound)
    (few : l.rows.length < 2 ^ 63) : a.Numbered := by
  have homed := d.homed sound few
  have ids := d.perm_ids sound few
  have numbers : ((List.range l.rows.length).map Int64.ofNat).Nodup :=
    sound.numbered ▸ (sound.distinct few).ids
  refine ⟨ids.nodup_iff.2 numbers, ?_, ?_, ?_, ?_⟩
  · intro id
    rw [ids.mem_iff, mem_numbers_iff few, d.nextId]
  · intro scope scope' home home' type type' id id' method method' held row held' row' same
    have left := Hierarchy.mem_methods_iff.2 ⟨home, type, held, row⟩
    have right := Hierarchy.mem_methods_iff.2 ⟨home', type', held', row'⟩
    obtain ⟨left, here⟩ := (d.mem_methods_iff sound few).1 left
    obtain ⟨right, there⟩ := (d.mem_methods_iff sound few).1 right
    cases ((sound.distinct few).row_eq left right).2 same
    have homes := (homed scope home type id method held row).symm.trans
      (homed scope' home' type' id method held' row')
    exact ⟨here.trans there.symm, Option.some.inj homes, rfl⟩
  · intro scope home type id method held row
    exact typeUri_eq_ok_iff.2 (homed scope home type id method held row)
  · rw [← Hierarchy.length_allMethods, (d.perm_allMethods sound few).length_eq]
    unfold nodeCount
    rw [d.nextId]
    show (Int64.ofNat l.rows.length).toUInt64.toNat = _
    rw [Int64.toUInt64_ofNat', UInt64.toNat_ofNat_of_lt']
    exact Nat.lt_trans few (by decide)

/-- However a new assembler is run, its methods are numbered from 0 on without gaps or doubles, and
a revision that is finished holds these methods and finds each of them by its id. -/
theorem numbered_run {facts : List Fact} (few : facts.length < 2 ^ 63) :
    (empty.run facts).Numbered ∧
      ∀ forge product version generator timestamp r,
        (empty.run facts).finish forge product version generator timestamp = .ok r →
          r.nodeCount = (empty.run facts).nodeCount ∧
          r.hierarchy = (empty.run facts).hierarchy ∧
          r.methodsById.size = r.nodeCount.toNat ∧
          r.nodeCount.toNat = r.hierarchy.methodCount ∧
          ∀ id method, r.methodsById.get? id = some method ↔
            ∃ scope, (id, method) ∈ r.hierarchy.methods scope := by
  obtain ⟨describes, sound, length⟩ := describes_run facts few
  have numbered := numbered_of_describes describes sound (Nat.lt_of_le_of_lt length few)
  refine ⟨numbered, ?_⟩
  intro forge product version generator timestamp r finished
  obtain ⟨hierarchy, _, count⟩ := finish_ok finished
  have counted : r.nodeCount.toNat = r.hierarchy.methodCount := by
    rw [count, hierarchy, numbered.count]
  have perm : r.methodsById.toList.Perm r.hierarchy.allMethods :=
    Revision.perm_methodsById (hierarchy ▸ numbered.distinct)
  refine ⟨count, hierarchy, ?_, counted, ?_⟩
  · rw [counted, ← Hierarchy.length_allMethods]
    exact perm.length_eq
  · intro id method
    rw [← SortedMap.mem_toList_iff, perm.mem_iff, Hierarchy.mem_allMethods_iff]

theorem numbered_run_late :
    lateFacts.length < 2 ^ 63 ∧ (empty.run lateFacts).Numbered ∧
      (empty.run lateFacts).nextId = 2 ∧
      ∃ r, (empty.run lateFacts).finish "mvn" "app" "1.0" "test" none = .ok r ∧
        r.nodeCount = (empty.run lateFacts).nodeCount ∧ r.methodsById.size = r.nodeCount.toNat := by
  have few : lateFacts.length < 2 ^ 63 := by decide
  obtain ⟨numbered, finds⟩ := numbered_run few
  obtain ⟨r, finished⟩ := exists_finish_late
  obtain ⟨count, _, size, _⟩ := finds _ _ _ _ _ r finished
  exact ⟨few, numbered, by decide +kernel, r, finished, count, size⟩

end Assembler

end RevisionGraph
