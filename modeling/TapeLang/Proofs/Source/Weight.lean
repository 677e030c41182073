import TapeLang.Proofs.Source.Reencoding

/-!
Joining neighbours keeps what code does, as long as the sums fit into words.  The weight of
code bounds every sum that joining comes to.  A byte weighs one at most, so that a text of
less than `2 ^ 63` bytes is never too heavy.  No text in memory is longer.
-/

namespace TapeLang

namespace Instruction

/-- The sum of all distances and amounts, regardless of their signs. -/
def weight : List Instruction → Nat
  | [] => 0
  | instruction :: code => instruction.payload.toInt.natAbs + weight code

theorem weight_append (front back : List Instruction) :
    weight (front ++ back) = weight front + weight back := by
  induction front with
  | nil => exact (Nat.zero_add _).symm
  | cons instruction front inductionHypothesis =>
      rw [List.cons_append, weight, weight, inductionHypothesis, Nat.add_assoc]

theorem natAbs_payload_le_weight {code : List Instruction} {instruction : Instruction}
    (inCode : instruction ∈ code) : instruction.payload.toInt.natAbs ≤ weight code := by
  induction inCode with
  | head code => exact Nat.le_add_right _ _
  | tail other _ inductionHypothesis =>
      exact Nat.le_trans inductionHypothesis (Nat.le_add_left _ _)

theorem natAbs_toInt_add_le (a b : Int64) :
    (a + b).toInt.natAbs ≤ a.toInt.natAbs + b.toInt.natAbs := by
  by_cases fits : a.toInt.natAbs + b.toInt.natAbs < 2 ^ 63
  · rw [Tape.toInt_add_of_fits (by omega) (by omega)]
    exact Int.natAbs_add_le _ _
  · have low := (a + b).le_toInt
    have high := (a + b).toInt_lt
    omega

theorem weight_fuse_le (element : Option Instruction) (rest : List (Option Instruction)) :
    weight (fuse element rest).reduceOption ≤ weight (element :: rest).reduceOption := by
  unfold fuse
  split
  · next first second rest =>
      have := natAbs_toInt_add_le first second
      simp only [List.reduceOption_cons_of_some, weight, payload_move]
      omega
  · next first second rest =>
      have := natAbs_toInt_add_le first second
      simp only [List.reduceOption_cons_of_some, weight, payload_add]
      omega
  · exact Nat.le_refl _

theorem weight_cons_reduceOption (element : Option Instruction) (rest : List (Option Instruction)) :
    weight (element :: rest).reduceOption =
      (element.elim 0 fun i => i.payload.toInt.natAbs) + weight rest.reduceOption := by
  cases element with
  | none => simp
  | some instruction => simp [weight]

theorem weight_fused_le (elements : List (Option Instruction)) :
    weight (fused elements).reduceOption ≤ weight elements.reduceOption := by
  induction elements with
  | nil => exact Nat.le_refl _
  | cons element rest inductionHypothesis =>
      apply Nat.le_trans (weight_fuse_le element (fused rest))
      rw [weight_cons_reduceOption, weight_cons_reduceOption]
      exact Nat.add_le_add_left inductionHypothesis _

theorem weight_filter_le (keep : Instruction → Bool) (code : List Instruction) :
    weight (code.filter keep) ≤ weight code := by
  induction code with
  | nil => exact Nat.le_refl _
  | cons instruction code inductionHypothesis =>
      rw [List.filter_cons]
      split
      · exact Nat.add_le_add_left inductionHypothesis _
      · exact Nat.le_trans inductionHypothesis (Nat.le_add_left _ _)

/-- A symbol weighs one at most. -/
theorem weight_letters_le (letters : List (Option Symbol)) :
    weight (letters.map (Option.map Symbol.instruction)).reduceOption ≤ letters.length := by
  induction letters with
  | nil => exact Nat.le_refl _
  | cons letter letters inductionHypothesis =>
      have light : ((letter.map Symbol.instruction).elim 0 fun i => i.payload.toInt.natAbs) ≤ 1 := by
        rcases letter with _ | symbol
        · exact Nat.zero_le 1
        · cases symbol <;> decide
      rw [List.map_cons, weight_cons_reduceOption, List.length_cons, Nat.add_comm]
      exact Nat.add_le_add inductionHypothesis light

theorem weight_units_le (bytes : List UInt8) :
    weight (bytes.map unit?).reduceOption ≤ bytes.length := by
  have lighter := weight_letters_le (bytes.map Symbol.ofByte?)
  rwa [List.map_map, List.length_map] at lighter

end Instruction

open Instruction

/-- Two neighbours and their sum. -/
theorem equates_sum (kind : RunKind) {first second : Int64}
    (fits : first.toInt.natAbs + second.toInt.natAbs < 2 ^ 63) :
    Equates [kind.instruction first, kind.instruction second]
      [kind.instruction (first + second)] := by
  have exactSum : (first + second).toInt = first.toInt + second.toInt :=
    Tape.toInt_add_of_fits (by omega) (by omega)
  refine ⟨?_, ?_, ?_⟩
  · cases kind <;> simp [RunKind.instruction, isStraight]
  · cases kind <;> simp [RunKind.instruction, isStraight]
  · intro v
    cases kind with
    | move => simp [RunKind.instruction, onView, exactSum, Tape.View.shift_shift]
    | add => simp [RunKind.instruction, onView, exactSum, Tape.View.add_add]

theorem Condenses.sum (kind : RunKind) {first second : Int64} (code : List Instruction)
    (fits : first.toInt.natAbs + second.toInt.natAbs < 2 ^ 63) :
    Condenses (kind.instruction first :: kind.instruction second :: code)
      (kind.instruction (first + second) :: code) :=
  (of_equates (equates_sum kind fits) (by simp)).append (refl code)

theorem Condenses.still (kind : RunKind) {net : Int64} (code : List Instruction)
    (zero : net.toInt = 0) : Condenses (kind.instruction net :: code) code := by
  have equates : Equates [kind.instruction net] [] := by
    refine ⟨?_, ?_, ?_⟩
    · cases kind <;> simp [RunKind.instruction, isStraight]
    · simp
    · intro v
      cases kind <;> simp [RunKind.instruction, onView, zero]
  exact (of_equates equates (by simp)).append (refl code)

/-- A gap does nothing, and so it may stand for an addition of zero. -/
theorem CondensesTo.fuse (element : Option Instruction) (rest : List (Option Instruction))
    (light : weight (element :: rest).reduceOption < 2 ^ 63) :
    CondensesTo (element.getD (.add 0) :: rest.reduceOption)
      (Instruction.fuse element rest).reduceOption := by
  unfold Instruction.fuse
  split
  · next first second rest =>
      apply Relation.ReflTransGen.single
      apply Condenses.sum .move rest.reduceOption
      simp [weight] at light
      omega
  · next first second rest =>
      apply Relation.ReflTransGen.single
      apply Condenses.sum .add rest.reduceOption
      simp [weight] at light
      omega
  · cases element with
    | none => exact .single (Condenses.still .add rest.reduceOption rfl)
    | some instruction => exact .refl

theorem CondensesTo.fused (elements : List (Option Instruction))
    (light : weight elements.reduceOption < 2 ^ 63) :
    CondensesTo (elements.map fun element => element.getD (.add 0))
      (Instruction.fused elements).reduceOption := by
  induction elements with
  | nil => exact .refl
  | cons element rest inductionHypothesis =>
      rw [weight_cons_reduceOption] at light
      have lightRest : weight rest.reduceOption < 2 ^ 63 := by omega
      have lighter := weight_fused_le rest
      apply ((inductionHypothesis lightRest).cons (element.getD (.add 0))).trans
      apply CondensesTo.fuse
      rw [weight_cons_reduceOption]
      omega

theorem CondensesTo.filter {code : List Instruction} (goesOn : .stop ∉ code) :
    CondensesTo code (code.filter isEncoded) := by
  induction code with
  | nil => exact .refl
  | cons instruction code inductionHypothesis =>
      rw [List.mem_cons, not_or] at goesOn
      have later := inductionHypothesis goesOn.2
      by_cases encoded : instruction.isEncoded
      · rw [List.filter_cons_of_pos encoded]
        exact later.cons instruction
      · rw [List.filter_cons_of_neg encoded]
        refine .head ?_ later
        cases instruction with
        | move distance =>
            exact Condenses.still .move code (by simpa [isEncoded, symbols] using encoded)
        | add amount =>
            exact Condenses.still .add code (by simpa [isEncoded, symbols] using encoded)
        | stop => exact absurd rfl goesOn.1
        | _ => exact absurd rfl encoded

/-- Code without stops that leaves the same traces as a program condenses to what the encoding
of the program scans to. -/
theorem condensesTo_body_encoding {p : Program} {code : List Instruction}
    (light : weight (code.filter isEncoded) < 2 ^ 63) (goesOn : .stop ∉ code)
    (traces : code.filter isEncoded = p.toList.filter isEncoded) :
    CondensesTo code (body p.encoding) := by
  have light' : weight ((code.filter isEncoded).map some).reduceOption < 2 ^ 63 := by
    rwa [List.reduceOption, List.filterMap_map, Function.id_comp, List.filterMap_some]
  rw [body_encoding, ← traces]
  apply (CondensesTo.filter goesOn).trans
  simpa [Function.comp_def] using CondensesTo.fused _ light'

end TapeLang
