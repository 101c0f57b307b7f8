import Mathlib.Data.List.TakeWhile
import RevisionGraph.Json.Token
import RevisionGraph.Json.Writer

/-!
# Written literals

The digits of a whole number are read as that number, and the characters between the quotes of a
text as the text: `Token.ofWord?_integerChars`, `Token.readPieces_quoted` and
`Token.joinPieces_pieces`.
-/

namespace RevisionGraph

/-! ### Digits -/

theorem naturalDigits_ne_nil (n : Nat) : naturalDigits n ≠ [] := Nat.toDigits_ne_nil

theorem digitChar_ne_zero {n : Nat} (pos : n ≠ 0) (small : n < 10) : Nat.digitChar n ≠ '0' := by
  have digits : ∀ d, d < 10 → d ≠ 0 → Nat.digitChar d ≠ '0' := by decide
  exact digits n small pos

theorem naturalDigits_of_lt {n : Nat} (small : n < 10) : naturalDigits n = [Nat.digitChar n] :=
  Nat.toDigits_of_lt_base small

theorem naturalDigits_of_le {n : Nat} (large : 10 ≤ n) :
    naturalDigits n = naturalDigits (n / 10) ++ [Nat.digitChar (n % 10)] :=
  Nat.toDigits_of_base_le (by decide) large

theorem naturalDigits_ne_zero_cons {n : Nat} (pos : n ≠ 0) (rest : List Char) :
    naturalDigits n ≠ '0' :: rest := by
  induction n using Nat.strongRecOn generalizing rest with
  | ind n ih =>
    intro written
    by_cases small : n < 10
    · rw [naturalDigits_of_lt small] at written
      exact digitChar_ne_zero pos small (List.cons.inj written).1
    · rw [naturalDigits_of_le (by omega)] at written
      cases front : naturalDigits (n / 10) with
      | nil => exact naturalDigits_ne_nil _ front
      | cons first more =>
        rw [front, List.cons_append] at written
        obtain ⟨rfl, _⟩ := List.cons.inj written
        exact ih (n / 10) (by omega) (by omega) more front

namespace Json

/-! ### Whole numbers -/

namespace Numeral

theorem readWhole?_naturalDigits (negative : Bool) (n : Nat) :
    readWhole? negative (naturalDigits n) = some ⟨negative, naturalDigits n, none, none⟩ := by
  have all : (naturalDigits n).takeWhile Char.isDigit = naturalDigits n :=
    List.takeWhile_eq_self_iff.2 fun _ => isDigit_of_mem_naturalDigits
  have none' : (naturalDigits n).dropWhile Char.isDigit = [] :=
    List.dropWhile_eq_nil_iff.2 fun _ => isDigit_of_mem_naturalDigits
  unfold readWhole?
  rw [all, none']
  split <;> rename_i written
  · exact absurd written (naturalDigits_ne_nil n)
  · by_cases zero : n = 0
    · subst zero
      cases written
    · exact absurd written (naturalDigits_ne_zero_cons zero _)
  · rfl

theorem read?_naturalDigits (n : Nat) :
    read? (naturalDigits n) = some ⟨false, naturalDigits n, none, none⟩ := by
  unfold read?
  split <;> rename_i written
  · have digit : ('-' : Char).isDigit = true :=
      isDigit_of_mem_naturalDigits (written ▸ List.mem_cons_self)
    cases digit
  · exact readWhole?_naturalDigits false n

theorem integer?_naturalDigits (n : Nat) :
    (Numeral.mk false (naturalDigits n) none none).integer? = Whole.ofInt? n := by
  simp only [integer?, digitsValue_naturalDigits, Bool.false_eq_true, if_false]

theorem integer?_negated {n : Nat} (pos : n ≠ 0) :
    (Numeral.mk true (naturalDigits n) none none).integer? = Whole.ofInt? (-(n : Int)) := by
  simp only [integer?, digitsValue_naturalDigits, if_true, if_neg pos]

theorem ofInt?_val (n : Whole) : Whole.ofInt? n.val = some n := dif_pos ⟨n.lower, n.upper⟩

/-- The digits of a whole number are read as that number. -/
theorem read?_integerChars (n : Whole) :
    ∃ numeral, read? (integerChars n.val) = some numeral ∧
      numeral.value? = some (.whole n) := by
  unfold integerChars
  split <;> rename_i sign
  · refine ⟨_, readWhole?_naturalDigits true n.val.natAbs, ?_⟩
    have back : -(n.val.natAbs : Int) = n.val := by omega
    rw [value?, integer?_negated (by omega), back, ofInt?_val]
  · refine ⟨_, read?_naturalDigits n.val.natAbs, ?_⟩
    have back : (n.val.natAbs : Int) = n.val := by omega
    rw [value?, integer?_naturalDigits, back, ofInt?_val]

end Numeral

namespace Token

/-- The characters that end a word. -/
def wordEnds : List Char := [' ', '\t', '\n', '\r', '[', ']', '{', '}', ':', ',', '"']

theorem isWordChar_iff {c : Char} : isWordChar c = true ↔ c ∉ wordEnds := by
  unfold isWordChar isSpace punctuation?
  split <;> simp_all [wordEnds, and_assoc]

theorem isWordChar_of_isDigit {c : Char} (digit : c.isDigit = true) : isWordChar c = true := by
  have noDigit : ∀ mark ∈ wordEnds, (!mark.isDigit) = true := List.all_eq_true.1 (by decide)
  refine isWordChar_iff.2 fun mem => ?_
  have apart := noDigit c mem
  rw [digit] at apart
  cases apart

theorem isWordChar_of_mem_integerChars {i : Int} {c : Char} (mem : c ∈ integerChars i) :
    isWordChar c = true := by
  rcases minus_or_isDigit_of_mem_integerChars mem with rfl | digit
  · rfl
  · exact isWordChar_of_isDigit digit

theorem integerChars_ne_nil (i : Int) : integerChars i ≠ [] := by
  unfold integerChars
  split
  · exact List.cons_ne_nil _ _
  · exact naturalDigits_ne_nil _

/-- No name of a literal is read as a number. -/
theorem ofWord?_of_read? {word : List Char} {numeral : Numeral}
    (read : Numeral.read? word = some numeral) :
    ofWord? word = some (.number numeral.value?) := by
  have names : ∀ name ∈ ["null".toList, "true".toList, "false".toList],
      Numeral.read? name = none := by decide
  have apart (name : List Char) (mem : name ∈ ["null".toList, "true".toList, "false".toList]) :
      word ≠ name := by
    rintro rfl
    cases read.symm.trans (names _ mem)
  unfold ofWord?
  rw [if_neg (apart _ (by simp)), if_neg (apart _ (by simp)), if_neg (apart _ (by simp)), read]
  rfl

theorem ofWord?_integerChars (n : Whole) :
    ofWord? (integerChars n.val) = some (.number (some (.whole n))) := by
  obtain ⟨numeral, read, value⟩ := Numeral.read?_integerChars n
  rw [ofWord?_of_read? read, value]

/-! ### Quoted texts -/

/-- The characters that are written as a backslash and a letter or themselves. -/
def named : List Char := ['"', '\\', '\x08', '\x0c', '\n', '\r', '\t']

theorem escapeChar_of_named {c : Char} (mem : c ∈ named) :
    ∃ mark, mark ≠ 'u' ∧ escapeChar c = ['\\', mark] ∧ escaped? mark = some c := by
  simp only [named, List.mem_cons, List.not_mem_nil, or_false] at mem
  rcases mem with rfl | rfl | rfl | rfl | rfl | rfl | rfl <;> exact ⟨_, by decide, rfl, rfl⟩

theorem escapeChar_of_unnamed {c : Char} (unnamed : c ∉ named) :
    escapeChar c =
      if c.toNat < 0x20 then
        ['\\', 'u', '0', '0', hexChar (c.toNat / 16), hexChar (c.toNat % 16)]
      else [c] := by
  simp only [named, List.mem_cons, List.not_mem_nil, or_false, not_or] at unnamed
  simp only [escapeChar, unnamed, if_false]

theorem unit?_escaped {n : Nat} (small : n < 0x20) :
    unit? '0' '0' (hexChar (n / 16)) (hexChar (n % 16)) = some n := by
  have all : ∀ n, n < 0x20 → unit? '0' '0' (hexChar (n / 16)) (hexChar (n % 16)) = some n := by
    decide
  exact all n small

/-- What a character is read as that is written in quotes. -/
def pieceOf (c : Char) : Piece := if c.toNat < 0x20 ∧ c ∉ named then .unit c.toNat else .char c

theorem readPieces_escapeChar (c : Char) (done : List Piece) (rest : List Rune) :
    readPieces done ((escapeChar c).map some ++ rest) = readPieces (pieceOf c :: done) rest := by
  unfold pieceOf
  by_cases mem : c ∈ named
  · obtain ⟨mark, short, written, read⟩ := escapeChar_of_named mem
    rw [written, if_neg fun both => both.2 mem]
    simp [readPieces, short, read]
  rw [escapeChar_of_unnamed mem]
  by_cases control : c.toNat < 0x20
  · rw [if_pos control, if_pos ⟨control, mem⟩]
    simp [readPieces, unit?_escaped control]
  · rw [if_neg control, if_neg fun both => control both.1]
    simp only [named, List.mem_cons, not_or] at mem
    simp [readPieces, mem.1, mem.2.1, control]

theorem readPieces_quoted (chars : List Char) (done : List Piece) (rest : List Rune) :
    readPieces done ((chars.flatMap escapeChar ++ ['"']).map some ++ rest) =
      some (done.reverse ++ chars.map pieceOf, rest) := by
  induction chars generalizing done with
  | nil => simp [readPieces]
  | cons c chars ih =>
    rw [List.flatMap_cons, List.append_assoc, List.map_append, List.append_assoc,
      readPieces_escapeChar, ih]
    simp

/-- A unit below the surrogates is a character by itself. -/
theorem joinPieces_unit {u : Nat} (below : u < 0xD800) (done : List Char) (rest : List Piece) :
    joinPieces done (.unit u :: rest) = joinPieces (Char.ofNat u :: done) rest := by
  have high : isHighSurrogate u = false := by
    simp [isHighSurrogate]
    omega
  have low : isLowSurrogate u = false := by
    simp [isLowSurrogate]
    omega
  rw [joinPieces.eq_def]
  dsimp only
  rw [high, low]
  rfl

theorem joinPieces_pieceOf (c : Char) (done : List Char) (rest : List Piece) :
    joinPieces done (pieceOf c :: rest) = joinPieces (c :: done) rest := by
  unfold pieceOf
  split <;> rename_i control
  · rw [joinPieces_unit (by omega), Char.ofNat_toNat]
  · rfl

theorem joinPieces_pieces (chars done : List Char) :
    joinPieces done (chars.map pieceOf) = some (String.ofList (done.reverse ++ chars)) := by
  induction chars generalizing done with
  | nil => simp [joinPieces]
  | cons c chars ih =>
    rw [List.map_cons, joinPieces_pieceOf, ih]
    simp

end Token

end Json

end RevisionGraph
