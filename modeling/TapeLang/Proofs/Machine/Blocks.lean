import TapeLang.Proofs.Brackets.Table
import TapeLang.Proofs.Machine.Running

/-!
Programs that differ in their moves and additions only.  A list of blocks describes two
programs at once: they share some instructions, and between these they hold sequences of
moves and additions that do the same to every tape.  All targets of brackets are borders
of blocks, at the same border in both programs, so that their runs go through the same
borders with the same tape and the same streams.
-/

namespace TapeLang

open Brackets

/-- Sequences of moves and additions that do the same to every tape. -/
structure Equates (first second : List Instruction) : Prop where
  straight_first : ∀ instruction ∈ first, instruction.isStraight
  straight_second : ∀ instruction ∈ second, instruction.isStraight
  effect : ∀ v, first.foldl Instruction.onView v = second.foldl Instruction.onView v

theorem Equates.symm {first second : List Instruction} (equates : Equates first second) :
    Equates second first :=
  ⟨equates.straight_second, equates.straight_first, fun v => (equates.effect v).symm⟩

inductive Block where
  | same (instruction : Instruction)
  | straight (first second : List Instruction) (equates : Equates first second)

namespace Block

def first : Block → List Instruction
  | same instruction => [instruction]
  | straight first _ _ => first

def second : Block → List Instruction
  | same instruction => [instruction]
  | straight _ second _ => second

def swap : Block → Block
  | same instruction => same instruction
  | straight first second equates => straight second first equates.symm

@[simp] theorem first_swap (block : Block) : block.swap.first = block.second := by
  cases block <;> rfl

@[simp] theorem second_swap (block : Block) : block.swap.second = block.first := by
  cases block <;> rfl

def mark (meaning : Instruction → Mark) : Block → Mark
  | same instruction => meaning instruction
  | straight _ _ _ => .plain

/-- One of the two programs that blocks describe. -/
structure Reading (text : Block → List Instruction) : Prop where
  same : ∀ instruction, text (.same instruction) = [instruction]
  straight : ∀ {first second equates},
    ∀ instruction ∈ text (.straight first second equates), instruction.isStraight

theorem reading_first : Reading first := ⟨fun _ => rfl, fun {_ _ equates} => equates.straight_first⟩

theorem reading_second : Reading second :=
  ⟨fun _ => rfl, fun {_ _ equates} => equates.straight_second⟩

namespace Reading

variable {text : Block → List Instruction}

theorem reversed (reading : Reading text) : Reading (List.reverse ∘ text) where
  same instruction := by simp [reading.same]
  straight instruction inText := reading.straight instruction (List.mem_reverse.mp inText)

theorem beyond (reading : Reading text) {meaning : Instruction → Mark}
    (plain : ∀ instruction, instruction.isStraight → meaning instruction = .plain)
    (depth : Nat) (blocks : List Block) :
    Brackets.beyond meaning depth (blocks.flatMap text) =
      (Brackets.beyond (mark meaning) depth blocks).flatMap text := by
  apply beyond_flatMap
  · intro block meansMore
    cases block with
    | same instruction => exact ⟨instruction, reading.same instruction, rfl⟩
    | straight _ _ _ => exact absurd rfl meansMore
  · intro block meansNothing instruction inText
    cases block with
    | same other =>
        rw [reading.same, List.mem_singleton] at inText
        exact inText ▸ meansNothing
    | straight _ _ _ => exact plain instruction (reading.straight instruction inText)

end Reading

end Block

theorem Instruction.forwardMark_of_isStraight (instruction : Instruction)
    (straight : instruction.isStraight) : instruction.forwardMark = .plain := by
  cases instruction <;> first | rfl | contradiction

theorem Instruction.backwardMark_of_isStraight (instruction : Instruction)
    (straight : instruction.isStraight) : instruction.backwardMark = .plain := by
  cases instruction <;> first | rfl | contradiction

/-- A machine with one of the programs of some blocks, at a border between them. -/
structure Placed (text : Block → List Instruction) (before after : List Block) (m : Machine) :
    Prop where
  reading : Block.Reading text
  code : m.program.toList = (before ++ after).flatMap text
  pc : m.pc = (before.flatMap text).length
  resolver : m.resolver = .build m.settings.jumps m.program.code

namespace Placed

variable {text : Block → List Instruction} {before after skipped : List Block} {m : Machine}

theorem split (placed : Placed text before after m) :
    m.program.code.toList = before.flatMap text ++ after.flatMap text := by
  rw [← Program.toList, placed.code, List.flatMap_append]

theorem drop (placed : Placed text before after m) :
    m.program.toList.drop m.pc = after.flatMap text := by
  rw [Program.toList, placed.split, placed.pc, List.drop_left]

theorem get?_pc {instruction : Instruction}
    (placed : Placed text before (.same instruction :: after) m) :
    m.program.get? m.pc = some instruction := by
  have here := placed.drop
  rw [List.flatMap_cons, placed.reading.same, List.singleton_append] at here
  exact Machine.get?_of_drop here

theorem get?_pc_nil (placed : Placed text before [] m) : m.program.get? m.pc = none := by
  have ended := placed.drop
  rw [List.flatMap_nil, List.drop_eq_nil_iff] at ended
  exact Array.getElem?_eq_none ended

/-- Where a loop start leads that skips its loop: to the border beyond its partner. -/
theorem afterLoop (placed : Placed text before (.same .loopStart :: after) m)
    (split : after =
      skipped ++ beyond (Block.mark Instruction.forwardMark) 0 after) :
    m.resolver.afterLoop m.program.code m.pc =
      ((before ++ .same .loopStart :: skipped).flatMap text).length := by
  have found := placed.get?_pc
  have code : m.program.code.toList = before.flatMap text ++ .loopStart :: after.flatMap text := by
    rw [placed.split, List.flatMap_cons, placed.reading.same, List.singleton_append]
  have scanned := afterLoop_add_length_beyond_behind code
  rw [placed.reading.beyond Instruction.forwardMark_of_isStraight] at scanned
  have lengths := congrArg (fun blocks => (blocks.flatMap text).length) split
  rw [placed.resolver, Resolver.afterLoop_build _ found, placed.pc]
  simp only [List.flatMap_append, List.flatMap_cons, List.length_append, placed.reading.same,
    List.length_singleton] at lengths ⊢
  omega

/-- Where a loop end leads that repeats its loop: to the border before its partner. -/
theorem loopHead (placed : Placed text before (.same .loopEnd :: after) m) :
    m.resolver.loopHead m.program.code m.pc =
      ((beyond (Block.mark Instruction.backwardMark) 0 before.reverse).reverse.flatMap
        text).length := by
  have found := placed.get?_pc
  rw [placed.resolver, Resolver.loopHead_build _ found, placed.pc,
    loopHead_eq_length_beyond placed.split (Nat.le_refl _), List.take_length, List.reverse_flatMap,
    placed.reading.reversed.beyond Instruction.backwardMark_of_isStraight,
    ← List.length_reverse, List.reverse_flatMap]
  simp [Function.comp_def]

end Placed

end TapeLang
