import TapeLang.Proofs.Source.Fusing

/-!
Scanning the encoding of a program.  It gives the instructions that leave a trace in the
encoding, with new neighbours of one kind joined.
-/

namespace TapeLang

open Instruction

@[simp] theorem unit?_toByte (symbol : Symbol) : unit? symbol.toByte = some symbol.instruction := by
  rw [unit?, Symbol.ofByte?_toByte, Option.map_some]

@[simp] theorem utf8EncodeChar_toChar (symbol : Symbol) :
    String.utf8EncodeChar symbol.toChar = [symbol.toByte] := by
  cases symbol <;> decide

theorem toUTF8_encoding (p : Program) :
    p.encoding.toUTF8.data.toList = p.toList.flatMap fun i => i.symbols.map Symbol.toByte := by
  have text := p.toList_encoding
  rw [← String.ofList_toList (s := p.encoding), text]
  simp [List.utf8Encode, List.flatMap_assoc, List.map_eq_flatMap]

namespace Instruction

/-- Whether an instruction leaves a trace in an encoding. -/
def isEncoded (instruction : Instruction) : Bool := !instruction.symbols.isEmpty

end Instruction

/-- A row of equal steps joins to their sum. -/
theorem foldr_fuse_replicate (kind : RunKind) (step : Int64) (count : Nat)
    (rest : List (Option Instruction)) :
    (List.replicate (count + 1) (some (kind.instruction step))).foldr fuse rest =
      fuse (some (kind.instruction (.ofInt ((count + 1 : Nat) * step.toInt)))) rest := by
  induction count with
  | zero => simp
  | succ count inductionHypothesis =>
      have sum : ((count + 1 + 1 : Nat) : Int) * step.toInt =
          step.toInt + (count + 1 : Nat) * step.toInt := by
        rw [Int.natCast_succ, Int.add_mul, Int.one_mul, Int.add_comm]
      rw [List.replicate_succ, List.foldr_cons, inductionHypothesis, fuse_fuse, sum,
        Int64.ofInt_add, Int64.ofInt_toInt]

theorem foldr_fuse_run (kind : RunKind) (net : Int64) (nonzero : net.toInt.natAbs ≠ 0)
    (rest : List (Option Instruction)) :
    (List.replicate net.toInt.natAbs
      (some (kind.instruction (if 0 ≤ net then 1 else -1)))).foldr fuse rest =
      fuse (some (kind.instruction net)) rest := by
  obtain ⟨count, magnitude⟩ := Nat.exists_eq_succ_of_ne_zero nonzero
  have net_eq : ((count + 1 : Nat) : Int) * (if 0 ≤ net then 1 else -1 : Int64).toInt =
      net.toInt := by
    rw [← Nat.succ_eq_add_one, ← magnitude]
    split
    · next positive =>
        have : 0 ≤ net.toInt := Int64.le_iff_toInt_le.mp positive
        rw [show (1 : Int64).toInt = 1 from rfl]
        omega
    · next negative =>
        have : ¬ 0 ≤ net.toInt := fun positive => negative (Int64.le_iff_toInt_le.mpr positive)
        rw [show (-1 : Int64).toInt = -1 from rfl]
        omega
  rw [magnitude, Nat.succ_eq_add_one, foldr_fuse_replicate, net_eq, Int64.ofInt_toInt]

theorem foldr_fuse_symbols {instruction : Instruction} (encoded : instruction.isEncoded)
    (rest : List (Option Instruction)) :
    (instruction.symbols.map fun symbol => some symbol.instruction).foldr fuse rest =
      fuse (some instruction) rest := by
  cases instruction with
  | move distance =>
      have nonzero : distance.toInt.natAbs ≠ 0 := by
        simpa [isEncoded, symbols] using encoded
      refine Eq.trans ?_ (foldr_fuse_run .move distance nonzero rest)
      rw [symbols, List.map_replicate]
      split <;> rfl
  | add amount =>
      have nonzero : amount.toInt.natAbs ≠ 0 := by
        simpa [isEncoded, symbols] using encoded
      refine Eq.trans ?_ (foldr_fuse_run .add amount nonzero rest)
      rw [symbols, List.map_replicate]
      split <;> rfl
  | stop => contradiction
  | _ => rfl

theorem fused_flatMap_symbols (code : List Instruction) :
    fused (code.flatMap fun i => i.symbols.map fun symbol => some symbol.instruction) =
      fused ((code.filter isEncoded).map some) := by
  induction code with
  | nil => rfl
  | cons instruction code inductionHypothesis =>
      rw [List.flatMap_cons, fused_append, inductionHypothesis]
      by_cases encoded : instruction.isEncoded
      · rw [foldr_fuse_symbols encoded, List.filter_cons_of_pos encoded]
        rfl
      · have traceless : instruction.symbols = [] := by simpa [isEncoded] using encoded
        rw [traceless, List.filter_cons_of_neg encoded]
        rfl

theorem body_encoding (p : Program) :
    body p.encoding = (fused ((p.toList.filter isEncoded).map some)).reduceOption := by
  rw [body, toUTF8_encoding, ← fused_flatMap_symbols, List.map_flatMap]
  simp [Function.comp_def]

end TapeLang
