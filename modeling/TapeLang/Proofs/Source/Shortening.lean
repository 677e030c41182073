import Mathlib.Data.Set.List
import Mathlib.Tactic.TFAE
import TapeLang.Proofs.Source.Canceling

/-!
What minifying leaves of a source.  It writes symbols only, keeps the brackets and the input
and output as they are, and makes no source longer.  The sources that keep their length are
those that have nothing to lose, and they stay as they are.
-/

namespace TapeLang

open Instruction

def commands : List Char := ['>', '<', '+', '-', '.', ',', '[', ']']

def opposedPairs : List (List Char) := [['>', '<'], ['<', '>'], ['+', '-'], ['-', '+']]

/-- A source without comments in which no pair cancels. -/
structure IsClean (source : String) : Prop where
  onlyCommands : ∀ byte ∈ source.toUTF8.data.toList, byte ∈ commands.map Char.toUInt8
  unopposed : ∀ pair ∈ opposedPairs, ¬ pair <:+: source.toList

section Characters

variable {source : String} {text : List Symbol}

theorem toChar_mem_commands (symbol : Symbol) : symbol.toChar ∈ commands := by
  cases symbol <;> decide

theorem mem_commands_iff {byte : UInt8} :
    byte ∈ commands.map Char.toUInt8 ↔ Symbol.ofByte? byte ≠ none := by
  have bytes : commands.map Char.toUInt8 = Symbol.all.map Symbol.toByte := rfl
  rw [bytes, List.mem_map, Option.ne_none_iff_exists']
  constructor
  · rintro ⟨symbol, _, rfl⟩
    exact ⟨symbol, Symbol.ofByte?_toByte symbol⟩
  · rintro ⟨symbol, known⟩
    refine ⟨symbol, ?_, Symbol.ofByte?_eq_some_iff.mp known⟩
    cases symbol <;> decide

theorem exists_text_of_noGap {letters : List (Option Symbol)} (noGap : none ∉ letters) :
    ∃ text : List Symbol, letters = text.map some := by
  have inRange : letters ∈ Set.range (List.map some) := by
    rw [Set.range_list_map]
    intro letter inLetters
    exact Option.ne_none_iff_exists.mp (ne_of_mem_of_not_mem inLetters noGap)
  obtain ⟨text, same⟩ := inRange
  exact ⟨text, same.symm⟩

theorem reduceOption_map_some (text : List Symbol) : (text.map some).reduceOption = text := by
  simp [List.reduceOption]

theorem mem_opposedPairs_iff {pair : List Char} :
    pair ∈ opposedPairs ↔ ∃ first second : Symbol,
      first.opposite? = some second ∧ pair = [first.toChar, second.toChar] := by
  constructor
  · intro isPair
    simp only [opposedPairs, List.mem_cons, List.not_mem_nil, or_false] at isPair
    rcases isPair with rfl | rfl | rfl | rfl
    · exact ⟨.right, .left, rfl, rfl⟩
    · exact ⟨.left, .right, rfl, rfl⟩
    · exact ⟨.increment, .decrement, rfl, rfl⟩
    · exact ⟨.decrement, .increment, rfl, rfl⟩
  · rintro ⟨first, second, opposite, rfl⟩
    cases first <;> cases opposite <;> decide

theorem unopposed_iff :
    Unopposed text ↔ ∀ pair ∈ opposedPairs, ¬ pair <:+: text.map Symbol.toChar := by
  rw [Unopposed, List.isChain_iff_forall_rel_of_append_cons_cons]
  constructor
  · intro unopposed pair isPair within
    obtain ⟨first, second, opposite, rfl⟩ := mem_opposedPairs_iff.mp isPair
    obtain ⟨symbols, ⟨before, after, split⟩, same⟩ := List.infix_map_iff.mp within
    obtain rfl : [first, second] = symbols :=
      List.map_injective_iff.mpr Symbol.toChar_injective same
    rw [List.append_assoc] at split
    exact unopposed split.symm opposite
  · intro noPair first second before after split opposite
    have within : [first, second] <:+: text := by
      refine ⟨before, after, ?_⟩
      rw [split, List.append_assoc]
      rfl
    apply noPair _ (mem_opposedPairs_iff.mpr ⟨first, second, opposite, rfl⟩)
    exact within.map Symbol.toChar

/-- The clean sources are the rows of symbols without opposites side by side. -/
theorem isClean_iff :
    IsClean source ↔ ∃ text, letters source = text.map some ∧ Unopposed text := by
  constructor
  · rintro ⟨onlyCommands, unopposed⟩
    have noGap : none ∉ letters source := by
      intro gap
      obtain ⟨byte, inSource, unknown⟩ := List.mem_map.mp gap
      exact mem_commands_iff.mp (onlyCommands byte inSource) unknown
    obtain ⟨text, same⟩ := exists_text_of_noGap noGap
    rw [letters_eq_map_some_iff.mp same] at unopposed
    exact ⟨text, same, unopposed_iff.mpr unopposed⟩
  · rintro ⟨text, same, unopposed⟩
    constructor
    case onlyCommands =>
      intro byte inSource
      apply mem_commands_iff.mpr
      have inLetters : Symbol.ofByte? byte ∈ letters source := List.mem_map_of_mem inSource
      rw [same] at inLetters
      obtain ⟨symbol, _, known⟩ := List.mem_map.mp inLetters
      rw [← known]
      exact Option.some_ne_none symbol
    case unopposed =>
      rw [letters_eq_map_some_iff.mp same]
      exact unopposed_iff.mp unopposed

end Characters

section Minified

variable {source : String}

def minified (source : String) : List Symbol := spelled (joined (letters source))

theorem toList_minify (source : String) :
    (minify source).toList = (minified source).map Symbol.toChar := by
  rw [minify, Program.toList_encoding, scan_eq_ending, Program.toList_ending, minified, spelled,
    letters, ← fused_units, List.flatMap_append, List.map_flatMap]
  exact List.append_nil _

theorem letters_minify (source : String) : letters (minify source) = (minified source).map some :=
  letters_eq_map_some_iff.mpr (toList_minify source)

theorem utf8ByteSize_minify (source : String) :
    (minify source).utf8ByteSize = (minified source).length := by
  rw [← length_letters, letters_minify, List.length_map]

theorem filterMap_ofChar?_minify (source : String) :
    (minify source).toList.filterMap Symbol.ofChar? = minified source := by
  rw [← reduceOption_letters, letters_minify, reduceOption_map_some]

/-- Every symbol that minifying takes out goes together with another one. -/
theorem utf8ByteSize_minify_add (small : source.utf8ByteSize < 2 ^ 63) :
    ∃ pairs, (minify source).utf8ByteSize + 2 * pairs + (letters source).count none =
      source.utf8ByteSize := by
  rw [← length_letters] at small
  obtain ⟨pairs, counted⟩ := length_spelled_joined small
  refine ⟨pairs, ?_⟩
  rwa [utf8ByteSize_minify, ← length_letters source]

theorem isClean_of_utf8ByteSize_minify (small : source.utf8ByteSize < 2 ^ 63)
    (same : (minify source).utf8ByteSize = source.utf8ByteSize) : IsClean source := by
  obtain ⟨pairs, counted⟩ := utf8ByteSize_minify_add small
  have noGap : none ∉ letters source := List.count_eq_zero.mp (by omega)
  obtain ⟨text, known⟩ := exists_text_of_noGap noGap
  have size : source.utf8ByteSize = text.length := by
    rw [← length_letters, known, List.length_map]
  rw [utf8ByteSize_minify, minified, known, size] at same
  rw [size] at small
  exact isClean_iff.mpr ⟨text, known, unopposed_of_length small same⟩

theorem minify_of_isClean (small : source.utf8ByteSize < 2 ^ 63) (clean : IsClean source) :
    minify source = source := by
  obtain ⟨text, known, unopposed⟩ := isClean_iff.mp clean
  rw [← length_letters, known, List.length_map] at small
  rw [← String.toList_inj, toList_minify, letters_eq_map_some_iff.mp known, minified, known,
    (spelled_joined_of_unopposed small unopposed).1]

end Minified

/-- The brackets, input and output of a text are those among its symbols. -/
theorem filter_fixed (characters : List Char) :
    characters.filter (· ∈ ['[', ']', ',', '.']) =
      ((characters.filterMap Symbol.ofChar?).filter Symbol.isFixed).map Symbol.toChar := by
  induction characters with
  | nil => rfl
  | cons c rest inductionHypothesis =>
      cases known : Symbol.ofChar? c with
      | none =>
          have comment : c ∉ ['[', ']', ',', '.'] := by
            intro fixed
            simp only [List.mem_cons, List.not_mem_nil, or_false] at fixed
            rcases fixed with rfl | rfl | rfl | rfl <;> contradiction
          rw [List.filterMap_cons_none known, ← inductionHypothesis, List.filter_cons]
          simp [comment]
      | some symbol =>
          obtain rfl := Symbol.toChar_of_ofChar? known
          rw [List.filterMap_cons_some known, List.filter_cons, List.filter_cons,
            inductionHypothesis]
          cases symbol <;> rfl

/-- Minifying writes symbols only, keeps brackets, input and output, and makes nothing longer.
The clean sources are those that keep their length, and those that stay as they are.  Texts
in memory are smaller than the bound. -/
theorem minify_shortens (source : String) (small : source.utf8ByteSize < 2 ^ 63) :
    (∀ c ∈ (minify source).toList, c ∈ commands) ∧
      (minify source).toList.filter (· ∈ ['[', ']', ',', '.']) =
        source.toList.filter (· ∈ ['[', ']', ',', '.']) ∧
      (minify source).utf8ByteSize ≤ source.utf8ByteSize ∧
      List.TFAE [(minify source).utf8ByteSize = source.utf8ByteSize, minify source = source,
        IsClean source] := by
  refine ⟨?commands, ?fixed, ?shorter, ?clean⟩
  case commands =>
    rw [toList_minify]
    intro c written
    obtain ⟨symbol, _, rfl⟩ := List.mem_map.mp written
    exact toChar_mem_commands symbol
  case fixed =>
    have short : (letters source).length < 2 ^ 63 := by rwa [length_letters]
    rw [filter_fixed, filter_fixed, filterMap_ofChar?_minify, minified,
      filter_isFixed_spelled_joined short, reduceOption_letters]
  case shorter =>
    obtain ⟨pairs, counted⟩ := utf8ByteSize_minify_add small
    omega
  case clean =>
    tfae_have 1 → 3 := isClean_of_utf8ByteSize_minify small
    tfae_have 3 → 2 := minify_of_isClean small
    tfae_have 2 → 1 := by
      intro same
      rw [same]
    tfae_finish

theorem minify_shortens_unless_clean :
    "a ><[-]".utf8ByteSize < 2 ^ 63 ∧
      (minify "a ><[-]").utf8ByteSize < "a ><[-]".utf8ByteSize ∧ minify "[->+<]" = "[->+<]" := by
  have small : "a ><[-]".utf8ByteSize < 2 ^ 63 := by decide
  have unclean : ¬ IsClean "a ><[-]" := by
    intro clean
    exact clean.unopposed ['>', '<'] (by decide) (by decide +kernel)
  have clean : IsClean "[->+<]" := ⟨by decide +kernel, by decide +kernel⟩
  obtain ⟨_, _, shorter, kept⟩ := minify_shortens "a ><[-]" small
  refine ⟨small, Nat.lt_of_le_of_ne shorter ?_, ?_⟩
  · intro same
    exact unclean ((kept.out 0 2).mp same)
  · exact ((minify_shortens "[->+<]" (by decide)).2.2.2.out 2 1).mp clean

end TapeLang
