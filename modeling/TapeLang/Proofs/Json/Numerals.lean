import Mathlib.Data.List.TakeWhile
import TapeLang.Json.Token
import TapeLang.Json.Writer

/-!
Number literals.  A whole number is written with digits that read back as this number, and every
literal consists of characters that the lexer takes for parts of a number.
-/

namespace TapeLang.Json.Number

/-- What is written for the number is read as this number. -/
def IsLegible (number : Number) : Prop := ofLiteral? number.literal.toList = some number

theorem isDigit_of_mem_toDigits {n : Nat} {c : Char} (inDigits : c ∈ Nat.toDigits 10 n) :
    c.isDigit := Nat.isDigit_of_mem_toDigits (by decide) (by decide) inDigits

theorem digitsValue_toDigits (n : Nat) : digitsValue (Nat.toDigits 10 n) = n := by
  rw [digitsValue, ← Nat.ofDigitChars_eq_foldl, Nat.ofDigitChars_ten_toDigits]

/-- Only zero is written with a zero in front. -/
theorem head?_toDigits_ne_zero {n : Nat} (pos : 0 < n) :
    (Nat.toDigits 10 n).head? ≠ some '0' := by
  induction n using Nat.strongRecOn with
  | ind n inductionHypothesis =>
      by_cases small : n < 10
      · have noZero : ∀ k < 10, 0 < k → [k.digitChar].head? ≠ some '0' := by decide
        rw [Nat.toDigits_of_lt_base small]
        exact noZero n small pos
      · have large : 10 ≤ n := Nat.not_lt.mp small
        have fewer : n / 10 < n := Nat.div_lt_self pos (by decide)
        have more : 0 < n / 10 := Nat.div_pos large (by decide)
        have front := inductionHypothesis _ fewer more
        rw [Nat.toDigits_of_base_le (by decide) large]
        cases digits : Nat.toDigits 10 (n / 10) with
        | nil => exact absurd digits Nat.toDigits_ne_nil
        | cons first rest => rwa [digits] at front

theorem isWhole_of_head?_ne_zero {digits : List Char} (nonempty : digits ≠ [])
    (notZero : digits.head? ≠ some '0') : isWhole digits := by
  cases digits with
  | nil => exact absurd rfl nonempty
  | cons first rest =>
      have first_ne : first ≠ '0' := fun zero => notZero (zero ▸ rfl)
      unfold isWhole
      split <;> simp_all

theorem isWhole_toDigits (n : Nat) : isWhole (Nat.toDigits 10 n) := by
  rcases Nat.eq_zero_or_pos n with rfl | pos
  · rfl
  · exact isWhole_of_head?_ne_zero Nat.toDigits_ne_nil (head?_toDigits_ne_zero pos)

theorem takeWhile_toDigits (n : Nat) :
    (Nat.toDigits 10 n).takeWhile Char.isDigit = Nat.toDigits 10 n :=
  List.takeWhile_eq_self_iff.mpr fun _ => isDigit_of_mem_toDigits

theorem dropWhile_toDigits (n : Nat) : (Nat.toDigits 10 n).dropWhile Char.isDigit = [] :=
  List.dropWhile_eq_nil_iff.mpr fun _ => isDigit_of_mem_toDigits

theorem ofLiteral?_toDigits (n : Nat) :
    ofLiteral? (Nat.toDigits 10 n) = some (.integer n) := by
  have unsigned : ((Nat.toDigits 10 n).head? == some '-') = false := by
    rw [beq_eq_false_iff_ne]
    intro signed
    exact absurd (isDigit_of_mem_toDigits (List.mem_of_head? signed)) (by decide)
  simp [ofLiteral?, unsigned, takeWhile_toDigits, dropWhile_toDigits, isWhole_toDigits, isTail,
    isScale, digitsValue_toDigits]

theorem ofLiteral?_minus_toDigits {n : Nat} (pos : 0 < n) :
    ofLiteral? ('-' :: Nat.toDigits 10 n) = some (.integer (-n)) := by
  have notZero : Nat.toDigits 10 n ≠ ['0'] := by
    intro zero
    apply head?_toDigits_ne_zero pos
    rw [zero]
    rfl
  simp [ofLiteral?, takeWhile_toDigits, dropWhile_toDigits, isWhole_toDigits, isTail,
    isScale, digitsValue_toDigits, notZero]

theorem isLegible_integer (value : Int) : (integer value).IsLegible := by
  rw [IsLegible, literal, Int.toString_eq_repr, Int.repr_eq_if]
  split
  · next nonneg =>
      rw [Nat.repr_eq_ofList_toDigits, String.toList_ofList, ofLiteral?_toDigits,
        Int.toNat_of_nonneg nonneg]
  · next negative =>
      have pos : 0 < (-value).toNat := by omega
      have signed (digits : List Char) : ("-" ++ String.ofList digits).toList = '-' :: digits := by
        simp
      rw [Nat.repr_eq_ofList_toDigits, signed, ofLiteral?_minus_toDigits pos,
        Int.toNat_of_nonneg (by omega), Int.neg_neg]

def startsNumber (c : Char) : Bool := c == '-' || c.isDigit

theorem continuesNumber_of_isDigit {c : Char} (digit : c.isDigit) : continuesNumber c := by
  simp [continuesNumber, digit]

theorem continuesNumber_of_isExponent {literal : List Char} (exponent : isExponent literal) :
    ∀ c ∈ literal, continuesNumber c := by
  unfold isExponent at exponent
  split at exponent <;>
    simp only [Bool.and_eq_true, List.all_eq_true, List.forall_mem_cons] at exponent ⊢
  · exact ⟨rfl, fun c inDigits => continuesNumber_of_isDigit (exponent.2 c inDigits)⟩
  · exact ⟨rfl, fun c inDigits => continuesNumber_of_isDigit (exponent.2 c inDigits)⟩
  · exact fun c inDigits => continuesNumber_of_isDigit (exponent.2 c inDigits)

theorem continuesNumber_of_isScale {literal : List Char} (scale : isScale literal) :
    ∀ c ∈ literal, continuesNumber c := by
  unfold isScale at scale
  split at scale
  · exact fun _ => (absurd · List.not_mem_nil)
  · exact List.forall_mem_cons.mpr ⟨rfl, continuesNumber_of_isExponent scale⟩
  · exact List.forall_mem_cons.mpr ⟨rfl, continuesNumber_of_isExponent scale⟩
  · contradiction

theorem continuesNumber_of_takeWhile_dropWhile {literal : List Char}
    (tail : ∀ c ∈ literal.dropWhile Char.isDigit, continuesNumber c) :
    ∀ c ∈ literal, continuesNumber c := by
  intro c inLiteral
  rw [← List.takeWhile_append_dropWhile (p := Char.isDigit) (l := literal)] at inLiteral
  rcases List.mem_append.mp inLiteral with inWhole | inTail
  · exact continuesNumber_of_isDigit (List.mem_takeWhile_imp inWhole)
  · exact tail c inTail

theorem continuesNumber_of_isTail {literal : List Char} (tail : isTail literal) :
    ∀ c ∈ literal, continuesNumber c := by
  unfold isTail at tail
  split at tail
  · rw [Bool.and_eq_true] at tail
    have scale := continuesNumber_of_isScale tail.2
    exact List.forall_mem_cons.mpr ⟨rfl, continuesNumber_of_takeWhile_dropWhile scale⟩
  · exact continuesNumber_of_isScale tail

theorem exists_unsigned_of_ofLiteral? {literal : List Char} {number : Number}
    (read : ofLiteral? literal = some number) :
    ∃ unsigned, (literal = unsigned ∨ literal = '-' :: unsigned) ∧
      isWhole (unsigned.takeWhile Char.isDigit) ∧ isTail (unsigned.dropWhile Char.isDigit) := by
  simp only [ofLiteral?, Option.ite_none_right_eq_some, Bool.and_eq_true] at read
  refine ⟨_, ?_, read.1⟩
  split
  · next signed =>
      obtain ⟨rest, rfl⟩ := List.head?_eq_some_iff.mp (beq_iff_eq.mp signed)
      exact .inr rfl
  · exact .inl rfl

/-- Whatever reads as a number, the lexer keeps together. -/
theorem shape_of_ofLiteral? {literal : List Char} {number : Number}
    (read : ofLiteral? literal = some number) :
    ∃ first rest, literal = first :: rest ∧ startsNumber first ∧
      ∀ c ∈ rest, continuesNumber c := by
  obtain ⟨unsigned, signed, whole, tail⟩ := exists_unsigned_of_ofLiteral? read
  have all := continuesNumber_of_takeWhile_dropWhile (continuesNumber_of_isTail tail)
  rcases signed with rfl | rfl
  · cases literal with
    | nil => contradiction
    | cons first rest =>
        have digit : first.isDigit := by
          cases isDigit : first.isDigit with
          | true => rfl
          | false => simp [isDigit, isWhole] at whole
        exact ⟨first, rest, rfl, by simp [startsNumber, digit], (List.forall_mem_cons.mp all).2⟩
  · exact ⟨'-', unsigned, rfl, rfl, all⟩

end TapeLang.Json.Number
