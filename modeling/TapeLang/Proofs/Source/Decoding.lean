import TapeLang.Text.Utf8
import TapeLang.Proofs.Source.Canceling

/-!
Sources that are not UTF-8.  Decoding puts replacements for bytes that make no character, and
puts a character for several bytes.  All of these are comments, and a comment comes out as a
comment, longer or shorter.  So the symbols stay in their order, and wherever there was a gap
between two of them there still is one.
-/

namespace TapeLang

open Instruction

/-- Puts a letter in front, unless it is a gap and a gap is there already. -/
def spaceOut : Option Symbol → List (Option Symbol) → List (Option Symbol)
  | none, none :: letters => none :: letters
  | letter, letters => letter :: letters

/-- The letters with a single gap for every row of gaps. -/
def spaced (letters : List (Option Symbol)) : List (Option Symbol) := letters.foldr spaceOut []

section Spaced

variable {front back back' : List (Option Symbol)}

theorem spaced_append_congr (front : List (Option Symbol)) (same : spaced back = spaced back') :
    spaced (front ++ back) = spaced (front ++ back') := by
  unfold spaced at same ⊢
  rw [List.foldr_append, List.foldr_append, same]

@[simp] theorem spaced_gap_gap (letters : List (Option Symbol)) :
    spaced (none :: none :: letters) = spaced (none :: letters) := by
  have twice (rest : List (Option Symbol)) :
      spaceOut none (spaceOut none rest) = spaceOut none rest := by
    rcases rest with _ | ⟨_ | _, _⟩ <;> rfl
  exact twice (spaced letters)

theorem spaced_gaps (count : Nat) (letters : List (Option Symbol)) :
    spaced (List.replicate (count + 1) none ++ letters) = spaced (none :: letters) := by
  induction count with
  | zero => rfl
  | succ count inductionHypothesis =>
      rw [List.replicate_succ, List.cons_append, List.replicate_succ, List.cons_append,
        spaced_gap_gap, ← inductionHypothesis, List.replicate_succ, List.cons_append]

/-- The code of what is in front of a gap and that of what is behind it do not mix. -/
theorem reduceOption_joined_append_gap (front back : List (Option Symbol)) :
    (joined (front ++ none :: back)).reduceOption =
      (joined front).reduceOption ++ (joined back).reduceOption := by
  rw [joined, List.map_append, List.map_cons, Option.map_none, fused_append_none,
    List.reduceOption_append, List.reduceOption_cons_of_none, ← joined, ← joined]

@[simp] theorem reduceOption_joined_gap (letters : List (Option Symbol)) :
    (joined (none :: letters)).reduceOption = (joined letters).reduceOption :=
  reduceOption_joined_append_gap [] letters

/-- The size of the gaps makes no difference to the code. -/
theorem reduceOption_joined_spaced (front letters : List (Option Symbol)) :
    (joined (front ++ spaced letters)).reduceOption = (joined (front ++ letters)).reduceOption := by
  induction letters generalizing front with
  | nil => rfl
  | cons letter letters inductionHypothesis =>
      cases letter with
      | some symbol =>
          have split (rest : List (Option Symbol)) :
              front ++ some symbol :: rest = (front ++ [some symbol]) ++ rest := by simp
          rw [split, ← inductionHypothesis, ← split]
          rfl
      | none =>
          have later := inductionHypothesis []
          rw [List.nil_append, List.nil_append] at later
          rw [reduceOption_joined_append_gap, ← later, spaced, List.foldr_cons, ← spaced]
          rcases spaced letters with _ | ⟨_ | symbol, rest⟩ <;>
            simp [spaceOut, reduceOption_joined_append_gap]

theorem reduceOption_spaced (letters : List (Option Symbol)) :
    (spaced letters).reduceOption = letters.reduceOption := by
  induction letters with
  | nil => rfl
  | cons letter letters inductionHypothesis =>
      rw [spaced, List.foldr_cons, ← spaced]
      cases letter with
      | some symbol => simp [spaceOut, inductionHypothesis]
      | none =>
          rw [List.reduceOption_cons_of_none, ← inductionHypothesis]
          rcases spaced letters with _ | ⟨_ | _, _⟩ <;> rfl

end Spaced

/-- A character is written as the symbol that it is, or as a gap. -/
theorem spaced_letters_push (text : String) (c : Char) (rest : List (Option Symbol)) :
    spaced (letters (text.push c) ++ rest) =
      spaced (letters text ++ Symbol.ofChar? c :: rest) := by
  have written : letters (text.push c) =
      letters text ++ (String.utf8EncodeChar c).map Symbol.ofByte? := by
    simp [letters_eq_flatMap]
  rw [written, List.append_assoc]
  apply spaced_append_congr
  cases known : Symbol.ofChar? c with
  | some symbol => rw [map_ofByte?_of_symbol known, List.singleton_append]
  | none =>
      obtain ⟨size, positive⟩ := Nat.exists_eq_add_one.mpr c.utf8Size_pos
      rw [map_ofByte?_of_comment known, positive, spaced_gaps]

namespace Symbol

theorem toNat_toChar_lt (symbol : Symbol) : symbol.toChar.toNat < 0x80 ∧ symbol.toChar.toNat ≠ 0 := by
  cases symbol <;> decide

/-- Beyond the code points of single bytes there are no symbols. -/
theorem ofChar?_ofNat_eq_none {bits : Nat} (large : 0x80 ≤ bits) : ofChar? (.ofNat bits) = none := by
  cases known : ofChar? (.ofNat bits) with
  | none => rfl
  | some symbol =>
      obtain ⟨small, nonzero⟩ := symbol.toNat_toChar_lt
      rw [toChar_of_ofChar? known, Char.ofNat] at small nonzero
      by_cases valid : bits.isValidChar
      · rw [dif_pos valid] at small
        exact absurd large (Nat.not_le.mpr small)
      · rw [dif_neg valid] at nonzero
        contradiction

end Symbol

namespace Utf8

/-- What is known of a character in progress: only bytes that are no symbols go on with it, and
whatever character comes of it is none either. -/
structure Partial.IsWide (p : Partial) : Prop where
  low : 0x80 ≤ p.low.toNat
  high : p.high.toNat ≤ 0xBF
  bits : 0x80 ≤ (p.bits * 0x40 + p.low.toNat % 0x40) * 0x40 ^ p.later

theorem isWide_of_begin? {byte : UInt8} {p : Partial} (begins : begin? byte = some p) :
    p.IsWide := by
  simp only [begin?, UInt8.lt_iff_toNat_lt, ← UInt8.toNat_inj, UInt8.reduceToNat] at begins
  split at begins
  · contradiction
  · next notLow =>
      have large : 0xC2 ≤ byte.toNat := Nat.le_of_not_lt notLow
      repeat' split at begins
      all_goals cases begins
      all_goals constructor <;> simp <;> omega

/-- A byte that goes on with a character is no symbol, and keeps it wide. -/
theorem Partial.IsWide.goOn {later : Nat} {low high byte : UInt8} {known : Nat}
    (wide : Partial.IsWide ⟨later, low, high, known⟩) (inRange : low ≤ byte ∧ byte ≤ high) :
    Symbol.ofByte? byte = none ∧
      0x80 ≤ (known * 0x40 + byte.toNat % 0x40) * 0x40 ^ later := by
  obtain ⟨lowBound, highBound, bits⟩ := wide
  obtain ⟨least, most⟩ := inRange
  rw [UInt8.le_iff_toNat_le] at least most
  dsimp only at lowBound highBound bits
  constructor
  · apply Symbol.ofByte?_eq_none
    rw [UInt8.le_iff_toNat_le]
    exact Nat.le_trans lowBound least
  · have more : low.toNat % 0x40 ≤ byte.toNat % 0x40 := by omega
    apply Nat.le_trans bits
    exact Nat.mul_le_mul_right _ (Nat.add_le_add_left more _)

@[simp] theorem ofChar?_replacement : Symbol.ofChar? replacement = none := by decide

namespace Decoder

/-- The letters of what is decoded, and a gap for the bytes of a character in progress. -/
def letters (d : Decoder) : List (Option Symbol) :=
  TapeLang.letters d.text ++ d.current.toList.map fun _ => none

def IsSound (d : Decoder) : Prop := ∀ p ∈ d.current, p.IsWide

variable {d : Decoder}

theorem isSound_start (text : String) (byte : UInt8) : (start text byte).IsSound := by
  intro p inProgress
  unfold start at inProgress
  split at inProgress
  · contradiction
  · split at inProgress
    · next begins =>
        cases inProgress
        exact isWide_of_begin? begins
    · contradiction

theorem spaced_letters_start (text : String) (byte : UInt8) (rest : List (Option Symbol)) :
    spaced ((start text byte).letters ++ rest) =
      spaced (TapeLang.letters text ++ Symbol.ofByte? byte :: rest) := by
  unfold start
  split
  · next ascii =>
      have same := Symbol.ofByte?_ofNat byte.toNat ascii
      rw [UInt8.ofNat_toNat] at same
      simp [letters, spaced_letters_push, same]
  · next wide =>
      have comment : Symbol.ofByte? byte = none :=
        Symbol.ofByte?_eq_none (UInt8.not_lt.mp wide)
      split
      · simp [letters, comment]
      · simp [letters, spaced_letters_push, comment]

theorem isSound_feed (sound : d.IsSound) (byte : UInt8) : (d.feed byte).IsSound := by
  obtain ⟨text, current⟩ := d
  cases current with
  | none => exact isSound_start text byte
  | some p =>
      obtain ⟨later, low, high, known⟩ := p
      have wide : Partial.IsWide ⟨later, low, high, known⟩ := sound _ rfl
      unfold feed
      dsimp only
      split
      · next inRange =>
          obtain ⟨_, bits⟩ := wide.goOn inRange
          cases later with
          | zero => intro p inProgress; contradiction
          | succ later =>
              intro p inProgress
              cases inProgress
              rw [Nat.pow_succ, Nat.mul_comm (0x40 ^ later), ← Nat.mul_assoc] at bits
              exact ⟨Nat.le_refl 0x80, Nat.le_refl 0xBF, by simpa using bits⟩
      · exact isSound_start _ byte

/-- Each byte adds its own letter, up to the size of the gaps. -/
theorem spaced_letters_feed (sound : d.IsSound) (byte : UInt8) (rest : List (Option Symbol)) :
    spaced ((d.feed byte).letters ++ rest) =
      spaced (d.letters ++ Symbol.ofByte? byte :: rest) := by
  obtain ⟨text, current⟩ := d
  cases current with
  | none =>
      rw [feed, spaced_letters_start]
      simp [letters]
  | some p =>
      obtain ⟨later, low, high, known⟩ := p
      have wide : Partial.IsWide ⟨later, low, high, known⟩ := sound _ rfl
      have gap : letters ⟨text, some ⟨later, low, high, known⟩⟩ = TapeLang.letters text ++ [none] :=
        rfl
      rw [gap, List.append_assoc, List.singleton_append]
      unfold feed
      dsimp only
      split
      · next inRange =>
          obtain ⟨comment, bits⟩ := wide.goOn inRange
          rw [comment, spaced_append_congr _ (spaced_gap_gap rest)]
          cases later with
          | zero =>
              have noSymbol := Symbol.ofChar?_ofNat_eq_none (by simpa using bits)
              simp only [letters, Option.toList_none, List.map_nil, List.append_nil,
                spaced_letters_push, noSymbol]
          | succ later => simp [letters]
      · rw [spaced_letters_start, spaced_letters_push, ofChar?_replacement]

theorem spaced_letters_foldl (sound : d.IsSound) (bytes : List UInt8) :
    spaced (bytes.foldl feed d).letters = spaced (d.letters ++ bytes.map Symbol.ofByte?) := by
  induction bytes generalizing d with
  | nil => rw [List.foldl_nil, List.map_nil, List.append_nil]
  | cons byte bytes inductionHypothesis =>
      rw [List.foldl_cons, inductionHypothesis (isSound_feed sound byte),
        spaced_letters_feed sound, List.map_cons]

theorem spaced_letters_finish (d : Decoder) :
    spaced (TapeLang.letters d.finish) = spaced d.letters := by
  obtain ⟨text, current⟩ := d
  cases current with
  | none => simp [finish, letters]
  | some p =>
      have pushed := spaced_letters_push text replacement []
      rwa [List.append_nil, ofChar?_replacement] at pushed

end Decoder

/-- Decoding keeps the symbols, and the gaps between them up to their size. -/
theorem spaced_letters_decodeLossy (bytes : ByteArray) :
    spaced (letters (decodeLossy bytes)) = spaced (bytes.data.toList.map Symbol.ofByte?) := by
  have sound : Decoder.IsSound {} := by simp [Decoder.IsSound]
  rw [decodeLossy_eq_foldl, Decoder.spaced_letters_finish, Decoder.spaced_letters_foldl sound]
  rfl

end Utf8

theorem scanBytes_eq_joined (bytes : ByteArray) :
    scanBytes bytes = .ending (joined (bytes.data.toList.map Symbol.ofByte?)).reduceOption := by
  rw [scanBytes_eq_ending, fused_units]

/-- Bytes scan to the program that they scan to after decoding. -/
theorem scan_decodeLossy (bytes : ByteArray) :
    scan (Utf8.decodeLossy bytes) = scanBytes bytes := by
  have sameCode (letters : List (Option Symbol)) :
      (joined (spaced letters)).reduceOption = (joined letters).reduceOption :=
    reduceOption_joined_spaced [] letters
  rw [scan, scanBytes_eq_joined, scanBytes_eq_joined, ← sameCode, ← letters,
    Utf8.spaced_letters_decodeLossy, sameCode]

end TapeLang
