import Mathlib.Data.List.Chain
import TapeLang.Proofs.Source.Symbols
import TapeLang.Proofs.Source.Weight

/-!
What joining does to a text, symbol by symbol.  The symbols of a text are put in front from
the right.  A symbol either stays, or it meets a run of its opposite and takes a symbol off
that run.  Gaps are lost.  So every symbol that is missing in the end is missing together
with an opposite one, and nothing is missing only if there were no gaps and no opposites side
by side.
-/

namespace TapeLang

open Instruction

def RunKind.symbol : RunKind → Bool → Symbol
  | move, true => .right
  | move, false => .left
  | add, true => .increment
  | add, false => .decrement

def RunKind.row (kind : RunKind) (net : Int) : List Symbol :=
  List.replicate net.natAbs (kind.symbol (0 ≤ net))

namespace Symbol

def opposite? : Symbol → Option Symbol
  | right => some left
  | left => some right
  | increment => some decrement
  | decrement => some increment
  | _ => none

/-- Brackets, input and output. -/
def isFixed (symbol : Symbol) : Bool := symbol.opposite?.isNone

theorem isFixed_or_exists_run (symbol : Symbol) :
    symbol.isFixed ∨ ∃ kind up, symbol = RunKind.symbol kind up := by
  cases symbol with
  | right => exact .inr ⟨.move, true, rfl⟩
  | left => exact .inr ⟨.move, false, rfl⟩
  | increment => exact .inr ⟨.add, true, rfl⟩
  | decrement => exact .inr ⟨.add, false, rfl⟩
  | _ => exact .inl rfl

theorem isStraight_of_isFixed {symbol : Symbol} (fixed : symbol.isFixed) :
    symbol.instruction.isStraight = false := by
  cases symbol <;> first | rfl | contradiction

@[simp] theorem symbols_instruction (symbol : Symbol) : symbol.instruction.symbols = [symbol] := by
  cases symbol <;> decide

end Symbol

namespace RunKind

def step (up : Bool) : Int64 := if up then 1 else -1

variable (kind : RunKind) (up : Bool)

@[simp] theorem opposite?_symbol : (kind.symbol up).opposite? = some (kind.symbol !up) := by
  cases kind <;> cases up <;> rfl

@[simp] theorem instruction_symbol : (kind.symbol up).instruction = kind.instruction (step up) := by
  cases kind <;> cases up <;> rfl

theorem symbols_instruction (net : Int64) : (kind.instruction net).symbols = kind.row net.toInt := by
  have sign : (0 ≤ net) = (0 ≤ net.toInt) := propext Int64.le_iff_toInt_le
  cases kind <;> by_cases positive : 0 ≤ net.toInt <;>
    simp [instruction, symbols, row, symbol, sign, positive]

theorem symbol_injective {other : Bool} (same : kind.symbol up = kind.symbol other) :
    up = other := by
  cases kind <;> cases up <;> cases other <;> first | rfl | contradiction

/-- So many steps up or down. -/
theorem row_step_mul (count : Nat) :
    kind.row ((step up).toInt * count) = List.replicate count (kind.symbol up) := by
  cases count with
  | zero => simp [row]
  | succ count =>
      cases up with
      | true =>
          have positive : (0 : Int) ≤ (count + 1 : Nat) := Int.natCast_nonneg _
          simp only [step, if_true, Int64.toInt_one, Int.one_mul, row, positive, decide_true,
            Int.natAbs_natCast]
      | false =>
          have unit : (step false).toInt = -1 := rfl
          have negative : ¬ (0 : Int) ≤ -(count + 1 : Nat) := by omega
          simp only [unit, Int.neg_mul, Int.one_mul, row, negative, decide_false, Int.natAbs_neg,
            Int.natAbs_natCast]

theorem exists_steps (net : Int) : ∃ (up : Bool) (count : Nat), net = (step up).toInt * count := by
  rcases Int.eq_nat_or_neg net with ⟨count, rfl | rfl⟩
  · exact ⟨true, count, (Int.one_mul _).symm⟩
  · exact ⟨false, count, (Int.neg_one_mul _).symm⟩

theorem step_not : (step !up).toInt = -(step up).toInt := by
  cases up <;> rfl

variable {net : Int}

/-- A step along a run makes it longer. -/
theorem row_along (along : (kind.row net).head? ≠ some (kind.symbol !up)) :
    kind.row ((step up).toInt + net) = kind.symbol up :: kind.row net := by
  obtain ⟨direction, count, rfl⟩ := exists_steps net
  rw [row_step_mul] at along ⊢
  cases count with
  | zero => simpa using kind.row_step_mul up 1
  | succ count =>
      have same : direction = up := by
        by_contra differs
        apply along
        rw [List.head?_replicate, if_neg (Nat.succ_ne_zero count), Bool.eq_not.mpr differs]
      subst same
      have longer : (step direction).toInt + (step direction).toInt * (count + 1 : Nat) =
          (step direction).toInt * (count + 1 + 1 : Nat) := by
        rw [Int.natCast_succ (count + 1), Int.mul_add]
        omega
      rw [longer, row_step_mul, List.replicate_succ]

/-- A step against a run makes it shorter. -/
theorem row_against (against : (kind.row net).head? = some (kind.symbol !up)) :
    kind.row net = kind.symbol (!up) :: kind.row ((step up).toInt + net) := by
  obtain ⟨direction, count, rfl⟩ := exists_steps net
  rw [row_step_mul] at against
  cases count with
  | zero => simp at against
  | succ count =>
      rw [List.head?_replicate, if_neg (Nat.succ_ne_zero count), Option.some.injEq] at against
      obtain rfl := kind.symbol_injective direction against
      have shorter : (step up).toInt + (step !up).toInt * (count + 1 : Nat) =
          (step !up).toInt * count := by
        rw [step_not, Int.natCast_succ, Int.mul_add]
        omega
      rw [shorter, row_step_mul, row_step_mul, List.replicate_succ]

end RunKind

def spelled (elements : List (Option Instruction)) : List Symbol :=
  elements.reduceOption.flatMap symbols

/-- The first symbol of the first element. -/
def lead? : List (Option Instruction) → Option Symbol
  | some instruction :: _ => instruction.symbols.head?
  | _ => none

section Front

variable {symbol : Symbol} {rest : List (Option Instruction)}

@[simp] theorem spelled_cons_none (rest : List (Option Instruction)) :
    spelled (none :: rest) = spelled rest := by
  rw [spelled, List.reduceOption_cons_of_none, spelled]

@[simp] theorem spelled_cons_some (instruction : Instruction) (rest : List (Option Instruction)) :
    spelled (some instruction :: rest) = instruction.symbols ++ spelled rest := by
  rw [spelled, List.reduceOption_cons_of_some, List.flatMap_cons, spelled]

/-- Only runs of a kind have its symbols. -/
theorem exists_instruction_of_mem {kind : RunKind} {up : Bool} {instruction : Instruction}
    (inSymbols : kind.symbol up ∈ instruction.symbols) :
    ∃ net, instruction = kind.instruction net := by
  cases instruction with
  | move distance =>
      have same := List.eq_of_mem_replicate inSymbols
      cases kind with
      | move => exact ⟨distance, rfl⟩
      | add => cases up <;> split at same <;> contradiction
  | add amount =>
      have same := List.eq_of_mem_replicate inSymbols
      cases kind with
      | move => cases up <;> split at same <;> contradiction
      | add => exact ⟨amount, rfl⟩
  | loopStart | loopEnd | input | output | stop =>
      cases kind <;> cases up <;> simp [symbols, RunKind.symbol] at inSymbols

/-- How a symbol goes in front of the rest: it stays, or it meets its opposite and both are
gone. -/
inductive Fronted (symbol : Symbol) (rest whole : List (Option Instruction)) : Prop where
  | stays (along : ∀ other ∈ lead? rest, symbol.opposite? ≠ some other)
      (kept : spelled whole = symbol :: spelled rest) (leads : lead? whole = some symbol)
  | cancels (other : Symbol) (meets : lead? rest = some other)
      (against : symbol.opposite? = some other) (lost : spelled rest = other :: spelled whole)

/-- A symbol that finds nothing of its kind. -/
theorem fronted_of_not_joined (along : ∀ other ∈ lead? rest, symbol.opposite? ≠ some other) :
    Fronted symbol rest (some symbol.instruction :: rest) :=
  .stays along (by simp) (by simp [lead?])

/-- A step that finds a run of its kind. -/
theorem fronted_run (kind : RunKind) (up : Bool) (net : Int64) (rest : List (Option Instruction))
    (light : net.toInt.natAbs + 1 < 2 ^ 63) :
    Fronted (kind.symbol up) (some (kind.instruction net) :: rest)
      (some (kind.instruction (RunKind.step up + net)) :: rest) := by
  have sum : (RunKind.step up + net).toInt = (RunKind.step up).toInt + net.toInt := by
    have unit : (RunKind.step up).toInt.natAbs = 1 := by cases up <;> rfl
    exact Tape.toInt_add_of_fits (by omega) (by omega)
  by_cases against : (kind.row net.toInt).head? = some (kind.symbol !up)
  · apply Fronted.cancels (kind.symbol !up)
    · rw [lead?, kind.symbols_instruction, against]
    · exact kind.opposite?_symbol up
    · rw [spelled_cons_some, spelled_cons_some, kind.symbols_instruction,
        kind.symbols_instruction, sum, kind.row_against up against, List.cons_append]
  · apply Fronted.stays
    · intro other leads opposite
      rw [kind.opposite?_symbol] at opposite
      apply against
      rw [opposite, ← Option.mem_def.mp leads, lead?, kind.symbols_instruction]
    · rw [spelled_cons_some, spelled_cons_some, kind.symbols_instruction,
        kind.symbols_instruction, sum, kind.row_along up against, List.cons_append]
    · rw [lead?, kind.symbols_instruction, sum, kind.row_along up against, List.head?_cons]

/-- A step that finds something else than a run of its kind. -/
theorem not_opposed_of_not_isAkin {kind : RunKind} {up : Bool} {other : Instruction}
    (differs : ¬ (kind.symbol up).instruction.isAkin other) :
    ∀ symbol ∈ lead? (some other :: rest), (kind.symbol up).opposite? ≠ some symbol := by
  intro symbol leads opposite
  rw [kind.opposite?_symbol, Option.some.injEq] at opposite
  subst opposite
  obtain ⟨net, rfl⟩ := exists_instruction_of_mem (List.mem_of_mem_head? leads)
  apply differs
  rw [kind.instruction_symbol, instruction_isAkin_iff]
  exact ⟨net, rfl⟩

theorem fronted (symbol : Symbol) (rest : List (Option Instruction))
    (light : weight rest.reduceOption + 1 < 2 ^ 63) :
    Fronted symbol rest (fuse (some symbol.instruction) rest) := by
  rcases symbol.isFixed_or_exists_run with fixed | ⟨kind, up, rfl⟩
  · rw [fuse_of_not_isStraight (Symbol.isStraight_of_isFixed fixed)]
    apply fronted_of_not_joined
    intro other _ opposite
    rw [Symbol.isFixed, opposite] at fixed
    contradiction
  · rcases rest with _ | ⟨_ | other, rest⟩
    · rw [fuse_of_not_isAkin (by simp)]
      exact fronted_of_not_joined (by simp [lead?])
    · rw [fuse_cons_none]
      exact fronted_of_not_joined (by simp [lead?])
    · by_cases akin : (kind.symbol up).instruction.isAkin other
      · rw [kind.instruction_symbol, instruction_isAkin_iff] at akin
        obtain ⟨net, rfl⟩ := akin
        rw [kind.instruction_symbol, fuse_cons_instruction]
        apply fronted_run
        rw [List.reduceOption_cons_of_some, weight, payload_instruction] at light
        omega
      · rw [fuse_of_not_isAkin]
        · exact fronted_of_not_joined (not_opposed_of_not_isAkin akin)
        · intro next isNext
          cases isNext
          exact akin

end Front

/-- The elements of a text with the neighbours joined. -/
def joined (letters : List (Option Symbol)) : List (Option Instruction) :=
  fused (letters.map (Option.map Symbol.instruction))

/-- The elements of some bytes are those of their letters. -/
theorem fused_units (bytes : List UInt8) :
    fused (bytes.map unit?) = joined (bytes.map Symbol.ofByte?) := by
  rw [joined, List.map_map]
  rfl

section Joined

variable {letters : List (Option Symbol)} {text : List Symbol}

@[simp] theorem spelled_joined_cons_none (letters : List (Option Symbol)) :
    spelled (joined (none :: letters)) = spelled (joined letters) := by
  have gap : joined (none :: letters) = none :: joined letters := by
    rw [joined, List.map_cons, fused_cons]
    rfl
  rw [gap, spelled_cons_none]

theorem fronted_joined (symbol : Symbol) (short : letters.length + 1 < 2 ^ 63) :
    Fronted symbol (joined letters) (joined (some symbol :: letters)) := by
  apply fronted
  have lighter := weight_fused_le (letters.map (Option.map Symbol.instruction))
  have light := weight_letters_le letters
  rw [joined]
  omega

/-- Every symbol that is missing is missing together with another one. -/
theorem length_spelled_joined (short : letters.length < 2 ^ 63) :
    ∃ pairs, (spelled (joined letters)).length + 2 * pairs + letters.count none =
      letters.length := by
  induction letters with
  | nil => exact ⟨0, rfl⟩
  | cons letter letters inductionHypothesis =>
      rw [List.length_cons] at short ⊢
      obtain ⟨pairs, counted⟩ := inductionHypothesis (Nat.lt_of_succ_lt short)
      cases letter with
      | none =>
          refine ⟨pairs, ?_⟩
          rw [spelled_joined_cons_none, List.count_cons_self]
          omega
      | some symbol =>
          rw [List.count_cons_of_ne (Option.some_ne_none symbol)]
          cases fronted_joined symbol short with
          | stays _ kept _ =>
              refine ⟨pairs, ?_⟩
              rw [kept, List.length_cons]
              omega
          | cancels other _ _ lost =>
              refine ⟨pairs + 1, ?_⟩
              rw [lost, List.length_cons] at counted
              omega

/-- Brackets, input and output stay. -/
theorem filter_isFixed_spelled_joined (short : letters.length < 2 ^ 63) :
    (spelled (joined letters)).filter Symbol.isFixed =
      letters.reduceOption.filter Symbol.isFixed := by
  induction letters with
  | nil => rfl
  | cons letter letters inductionHypothesis =>
      rw [List.length_cons] at short
      have later := inductionHypothesis (Nat.lt_of_succ_lt short)
      cases letter with
      | none => rw [spelled_joined_cons_none, later, List.reduceOption_cons_of_none]
      | some symbol =>
          rw [List.reduceOption_cons_of_some, List.filter_cons, ← later]
          cases fronted_joined symbol short with
          | stays _ kept _ => rw [kept, List.filter_cons]
          | cancels other _ against lost =>
              have here : symbol.isFixed = false := by rw [Symbol.isFixed, against]; rfl
              have there : other.isFixed = false := by cases symbol <;> cases against <;> rfl
              rw [lost, List.filter_cons, here, there]
              simp

/-- No symbol stands next to its opposite. -/
def Unopposed (text : List Symbol) : Prop :=
  text.IsChain fun first second => first.opposite? ≠ some second

theorem spelled_joined_of_unopposed (short : text.length < 2 ^ 63) (unopposed : Unopposed text) :
    spelled (joined (text.map some)) = text ∧ lead? (joined (text.map some)) = text.head? := by
  induction text with
  | nil => exact ⟨rfl, rfl⟩
  | cons symbol text inductionHypothesis =>
      obtain ⟨apart, later⟩ := List.isChain_cons.mp unopposed
      rw [List.length_cons] at short
      obtain ⟨same, leads⟩ := inductionHypothesis (Nat.lt_of_succ_lt short) later
      have short' : (text.map some).length + 1 < 2 ^ 63 := by rwa [List.length_map]
      rw [List.map_cons]
      cases fronted_joined symbol short' with
      | stays _ kept leads' => exact ⟨by rw [kept, same], leads'⟩
      | cancels other meets against _ =>
          rw [leads] at meets
          exact absurd against (apart other meets)

theorem unopposed_of_length (short : text.length < 2 ^ 63)
    (same : (spelled (joined (text.map some))).length = text.length) : Unopposed text := by
  induction text with
  | nil => exact .nil
  | cons symbol text inductionHypothesis =>
      rw [List.length_cons] at short same
      have short' : (text.map some).length + 1 < 2 ^ 63 := by rwa [List.length_map]
      obtain ⟨pairs, counted⟩ := length_spelled_joined (Nat.lt_of_succ_lt short')
      rw [List.length_map] at counted
      rw [List.map_cons] at same
      cases fronted_joined symbol short' with
      | stays along kept _ =>
          rw [kept, List.length_cons] at same
          have later := inductionHypothesis (Nat.lt_of_succ_lt short) (Nat.succ.inj same)
          have leads := (spelled_joined_of_unopposed (Nat.lt_of_succ_lt short) later).2
          rw [leads] at along
          exact List.isChain_cons.mpr ⟨along, later⟩
      | cancels other _ _ lost =>
          rw [lost, List.length_cons] at counted
          omega

end Joined

end TapeLang
