import Mathlib.Data.List.ReduceOption
import TapeLang.Source

/-!
The symbols of a source text.  Symbols are single bytes, and no byte of another character is
one, so that it comes to the same whether the bytes of a text are read or its characters.
-/

namespace TapeLang

namespace Symbol

def all : List Symbol :=
  [right, left, increment, decrement, output, input, loopStart, loopEnd]

/-- The symbol that a character stands for; other characters are comments. -/
def ofChar? (c : Char) : Option Symbol := all.find? fun symbol => symbol.toChar == c

@[simp] theorem ofChar?_toChar (symbol : Symbol) : ofChar? symbol.toChar = some symbol := by
  cases symbol <;> rfl

theorem toChar_of_ofChar? {c : Char} {symbol : Symbol} (known : ofChar? c = some symbol) :
    symbol.toChar = c := by
  simpa using List.find?_some known

theorem toChar_injective : Function.Injective toChar := by
  intro first second same
  have known := congrArg ofChar? same
  rwa [ofChar?_toChar, ofChar?_toChar, Option.some.injEq] at known

theorem ofByte?_eq_none {byte : UInt8} (high : 0x80 ≤ byte) : ofByte? byte = none := by
  unfold ofByte?
  split <;> first | rfl | contradiction

theorem ofByte?_ofNat : ∀ n < 0x80, ofByte? (.ofNat n) = ofChar? (.ofNat n) := by
  decide

theorem ofByte?_eq_some_iff {byte : UInt8} {symbol : Symbol} :
    ofByte? byte = some symbol ↔ symbol.toByte = byte := by
  constructor
  · intro known
    unfold ofByte? at known
    split at known <;> cases known <;> rfl
  · rintro rfl
    exact ofByte?_toByte symbol

end Symbol

open TapeLang.Symbol

/-- The symbols of a source byte by byte, with a gap for every byte of a comment. -/
def letters (source : String) : List (Option Symbol) :=
  source.toUTF8.data.toList.map ofByte?

theorem length_letters (source : String) : (letters source).length = source.utf8ByteSize := by
  rw [letters, List.length_map]
  rfl

/-- A character that is a symbol is one byte. -/
theorem map_ofByte?_of_symbol {c : Char} {symbol : Symbol} (known : ofChar? c = some symbol) :
    (String.utf8EncodeChar c).map ofByte? = [some symbol] := by
  obtain rfl := toChar_of_ofChar? known
  cases symbol <;> decide

/-- The bytes of any other character are no symbols. -/
theorem map_ofByte?_of_comment {c : Char} (comment : ofChar? c = none) :
    (String.utf8EncodeChar c).map ofByte? = List.replicate c.utf8Size none := by
  rw [List.eq_replicate_iff, List.length_map, String.length_utf8EncodeChar]
  refine ⟨rfl, ?_⟩
  intro letter inBytes
  obtain ⟨byte, inChar, rfl⟩ := List.mem_map.mp inBytes
  by_cases ascii : c.val.toNat ≤ 0x7f
  · rw [String.utf8EncodeChar, if_pos ascii, List.mem_singleton] at inChar
    have same : Char.ofNat c.val.toNat = c := Char.ofNat_toNat c
    rw [inChar, ofByte?_ofNat _ (Nat.lt_succ_of_le ascii), same, comment]
  · apply ofByte?_eq_none
    rw [UInt8.le_iff_toNat_le]
    rw [String.utf8EncodeChar, if_neg ascii] at inChar
    -- Every byte has its highest bit set by one of the numbers that are added.
    split at inChar
    · simp only [List.mem_cons, List.not_mem_nil, or_false] at inChar
      rcases inChar with rfl | rfl <;> simp <;> omega
    · split at inChar
      · simp only [List.mem_cons, List.not_mem_nil, or_false] at inChar
        rcases inChar with rfl | rfl | rfl <;> simp <;> omega
      · simp only [List.mem_cons, List.not_mem_nil, or_false] at inChar
        rcases inChar with rfl | rfl | rfl | rfl <;> simp <;> omega

theorem letters_eq_flatMap (source : String) :
    letters source = source.toList.flatMap fun c => (String.utf8EncodeChar c).map ofByte? := by
  obtain ⟨text, rfl⟩ : ∃ text, source = String.ofList text :=
    ⟨source.toList, String.ofList_toList.symm⟩
  have bytes : (String.ofList text).toUTF8.data.toList = text.flatMap String.utf8EncodeChar := by
    simp [List.utf8Encode]
  rw [letters, bytes, List.map_flatMap, String.toList_ofList]

/-- Without the comments, the letters are the symbols among the characters. -/
theorem reduceOption_letters (source : String) :
    (letters source).reduceOption = source.toList.filterMap ofChar? := by
  rw [letters_eq_flatMap]
  induction source.toList with
  | nil => rfl
  | cons c rest inductionHypothesis =>
      rw [List.flatMap_cons, List.reduceOption_append, inductionHypothesis]
      cases known : ofChar? c with
      | none =>
          rw [map_ofByte?_of_comment known, List.reduceOption_replicate_none,
            List.filterMap_cons_none known, List.nil_append]
      | some symbol =>
          rw [map_ofByte?_of_symbol known, List.filterMap_cons_some known]
          rfl

/-- A source without comments is its symbols. -/
theorem letters_eq_map_some_iff {source : String} {text : List Symbol} :
    letters source = text.map some ↔ source.toList = text.map toChar := by
  rw [letters_eq_flatMap]
  generalize source.toList = characters
  constructor
  · intro known
    induction characters generalizing text with
    | nil =>
        rw [List.flatMap_nil, eq_comm, List.map_eq_nil_iff] at known
        rw [known, List.map_nil]
    | cons c rest inductionHypothesis =>
        rw [List.flatMap_cons] at known
        cases isSymbol : ofChar? c with
        | none =>
            obtain ⟨size, positive⟩ := Nat.exists_eq_add_one.mpr c.utf8Size_pos
            rw [map_ofByte?_of_comment isSymbol, positive, List.replicate_succ, List.cons_append,
              eq_comm, List.map_eq_cons_iff] at known
            obtain ⟨symbol, _, _, gap, _⟩ := known
            contradiction
        | some symbol =>
            rw [map_ofByte?_of_symbol isSymbol, List.singleton_append, eq_comm,
              List.map_eq_cons_iff] at known
            obtain ⟨first, later, rfl, same, known⟩ := known
            rw [Option.some.injEq] at same
            rw [inductionHypothesis known.symm, same, ← toChar_of_ofChar? isSymbol, List.map_cons]
  · intro written
    rw [written, List.flatMap_map, List.map_eq_flatMap]
    congr
    funext symbol
    exact map_ofByte?_of_symbol (ofChar?_toChar symbol)

end TapeLang
