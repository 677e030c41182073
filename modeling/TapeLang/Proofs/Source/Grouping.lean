import TapeLang.Proofs.Program.NormalForm
import TapeLang.Proofs.Source.Minifying
import TapeLang.Proofs.Source.Shortening

/-!
How the bytes of a source are read.  They fall into blocks: steps of one kind for as long as
they go on, single brackets, inputs and outputs, and comments.  `ReadsAs` says what each block
stands for, and knows of no open run.  Bytes can be read in one way only, and that is what
scanning finds.
-/

namespace TapeLang

open Instruction

namespace RunKind

def byte (kind : RunKind) (up : Bool) : UInt8 := (kind.symbol up).toByte

/-- How many more steps of a block go up than down. -/
def excess (kind : RunKind) (block : List UInt8) : Int :=
  block.count (kind.byte true) - block.count (kind.byte false)

end RunKind

/-- The instruction of a character that is no step of a run. -/
def single? : Char → Option Instruction
  | '.' => some .output
  | ',' => some .input
  | '[' => some .loopStart
  | ']' => some .loopEnd
  | _ => none

inductive ReadsAs : List UInt8 → List Instruction → Prop
  | nil : ReadsAs [] []
  /-- A block of steps of one kind, which does not go on behind it. -/
  | run {kind : RunKind} {block rest : List UInt8} {code : List Instruction}
      (nonempty : block ≠ []) (steps : ∀ byte ∈ block, ∃ up, byte = kind.byte up)
      (ends : ∀ up, rest.head? ≠ some (kind.byte up)) (later : ReadsAs rest code) :
      ReadsAs (block ++ rest) (kind.instruction (.ofInt (kind.excess block)) :: code)
  | single {c : Char} {instruction : Instruction} {rest : List UInt8} {code : List Instruction}
      (known : single? c = some instruction) (later : ReadsAs rest code) :
      ReadsAs (c.toUInt8 :: rest) (instruction :: code)
  | comment {byte : UInt8} {rest : List UInt8} {code : List Instruction}
      (unknown : byte ∉ commands.map Char.toUInt8) (later : ReadsAs rest code) :
      ReadsAs (byte :: rest) code

namespace RunKind

variable (kind : RunKind)

theorem unit?_byte (up : Bool) : unit? (kind.byte up) = some (kind.instruction (step up)) := by
  rw [byte, unit?_toByte, instruction_symbol]

theorem excess_cons (up : Bool) (block : List UInt8) :
    kind.excess (kind.byte up :: block) = (step up).toInt + kind.excess block := by
  have apart : kind.byte true ≠ kind.byte false := by cases kind <;> decide
  cases up with
  | true =>
      rw [excess, List.count_cons_self, List.count_cons_of_ne apart, excess,
        show (step true).toInt = 1 from rfl]
      omega
  | false =>
      rw [excess, List.count_cons_self, List.count_cons_of_ne apart.symm, excess,
        show (step false).toInt = -1 from rfl]
      omega

theorem natAbs_excess_le (block : List UInt8) : (kind.excess block).natAbs ≤ block.length := by
  have ups := List.count_le_length (a := kind.byte true) (l := block)
  have downs := List.count_le_length (a := kind.byte false) (l := block)
  rw [excess]
  omega

/-- Steps of one kind join to their excess. -/
theorem foldr_fuse_steps {block : List UInt8} (nonempty : block ≠ [])
    (steps : ∀ byte ∈ block, ∃ up, byte = kind.byte up) (rest : List (Option Instruction)) :
    (block.map unit?).foldr fuse rest =
      fuse (some (kind.instruction (.ofInt (kind.excess block)))) rest := by
  induction block with
  | nil => contradiction
  | cons first block inductionHypothesis =>
      rw [List.forall_mem_cons] at steps
      obtain ⟨⟨up, rfl⟩, steps⟩ := steps
      rw [List.map_cons, List.foldr_cons, unit?_byte, excess_cons, Int64.ofInt_add,
        Int64.ofInt_toInt]
      by_cases last : block = []
      · subst last
        simp [excess]
      · rw [inductionHypothesis last steps, fuse_fuse]

theorem runKind?_of_head?_fuse {element other : Option Instruction}
    {rest : List (Option Instruction)} (isFirst : (fuse element rest).head? = some other) :
    other.bind runKind? = element.bind runKind? := by
  unfold fuse at isFirst
  split at isFirst <;> cases isFirst <;> rfl

theorem exists_byte_of_runKind? {byte : UInt8} (known : (unit? byte).bind runKind? = some kind) :
    ∃ up, byte = kind.byte up := by
  rw [unit?, Option.bind_map, Option.bind_eq_some_iff] at known
  obtain ⟨symbol, known, isRun⟩ := known
  rw [Symbol.ofByte?_eq_some_iff] at known
  rcases symbol.isFixed_or_exists_run with fixed | ⟨other, up, rfl⟩
  · cases symbol <;> contradiction
  · rw [Function.comp_apply, instruction_symbol, runKind?_instruction, Option.some.injEq] at isRun
    subst isRun
    exact ⟨up, known.symm⟩

/-- Where the next byte is no step of its kind, a run ends. -/
theorem fuse_units_of_ends (net : Int64) {rest : List UInt8}
    (ends : ∀ up, rest.head? ≠ some (kind.byte up)) :
    fuse (some (kind.instruction net)) (fused (rest.map unit?)) =
      some (kind.instruction net) :: fused (rest.map unit?) := by
  apply fuse_of_not_isAkin
  intro other isNext akin
  cases rest with
  | nil => contradiction
  | cons byte rest =>
      have sameKind : runKind? other = (unit? byte).bind runKind? := runKind?_of_head?_fuse isNext
      obtain ⟨m, rfl⟩ := (instruction_isAkin_iff kind net other).mp akin
      rw [runKind?_instruction] at sameKind
      obtain ⟨up, rfl⟩ := kind.exists_byte_of_runKind? sameKind.symm
      exact ends up rfl

end RunKind

theorem unit?_of_single {c : Char} {instruction : Instruction}
    (known : single? c = some instruction) :
    unit? c.toUInt8 = some instruction ∧ instruction.isStraight = false := by
  unfold single? at known
  split at known <;> cases known <;> decide

theorem unit?_eq_none_iff {byte : UInt8} :
    unit? byte = none ↔ byte ∉ commands.map Char.toUInt8 := by
  rw [mem_commands_iff, not_not, unit?, Option.map_eq_none_iff]

/-- Joining single steps finds what the bytes are read as. -/
theorem ReadsAs.reduceOption_fused {bytes : List UInt8} {code : List Instruction}
    (reads : ReadsAs bytes code) :
    (fused (bytes.map unit?)).reduceOption = code := by
  induction reads with
  | nil => rfl
  | @run kind block rest code nonempty steps ends _ inductionHypothesis =>
      rw [List.map_append, fused_append, kind.foldr_fuse_steps nonempty steps,
        kind.fuse_units_of_ends _ ends, List.reduceOption_cons_of_some, inductionHypothesis]
  | single known _ inductionHypothesis =>
      obtain ⟨isUnit, fixed⟩ := unit?_of_single known
      rw [List.map_cons, fused_cons, isUnit, fuse_of_not_isStraight fixed,
        List.reduceOption_cons_of_some, inductionHypothesis]
  | comment unknown _ inductionHypothesis =>
      rw [List.map_cons, fused_cons, unit?_eq_none_iff.mpr unknown]
      exact inductionHypothesis

/-- The bytes of a run, and what follows it. -/
theorem RunKind.exists_block (kind : RunKind) (bytes : List UInt8) :
    ∃ block rest, bytes = block ++ rest ∧ (∀ byte ∈ block, ∃ up, byte = kind.byte up) ∧
      ∀ up, rest.head? ≠ some (kind.byte up) := by
  induction bytes with
  | nil => exact ⟨[], [], rfl, by simp, by simp⟩
  | cons byte bytes inductionHypothesis =>
      by_cases isStep : ∃ up, byte = kind.byte up
      · obtain ⟨block, rest, rfl, steps, ends⟩ := inductionHypothesis
        exact ⟨byte :: block, rest, rfl, List.forall_mem_cons.mpr ⟨isStep, steps⟩, ends⟩
      · refine ⟨[], byte :: bytes, rfl, by simp, ?_⟩
        intro up isNext
        exact isStep ⟨up, Option.some.inj isNext⟩

theorem exists_readsAs (bytes : List UInt8) : ∃ code, ReadsAs bytes code := by
  match bytes with
  | [] => exact ⟨[], .nil⟩
  | byte :: later =>
      cases known : Symbol.ofByte? byte with
      | none =>
          obtain ⟨code, reads⟩ := exists_readsAs later
          refine ⟨code, .comment ?_ reads⟩
          rwa [mem_commands_iff, not_not]
      | some symbol =>
          obtain rfl := Symbol.ofByte?_eq_some_iff.mp known
          rcases symbol.isFixed_or_exists_run with fixed | ⟨kind, up, rfl⟩
          · obtain ⟨code, reads⟩ := exists_readsAs later
            refine ⟨symbol.instruction :: code, .single ?_ reads⟩
            cases symbol <;> first | decide | contradiction
          · obtain ⟨block, rest, split, steps, ends⟩ := kind.exists_block later
            have lengths : later.length = block.length + rest.length := by
              rw [split, List.length_append]
            obtain ⟨code, reads⟩ := exists_readsAs rest
            rw [split]
            exact ⟨_, .run (List.cons_ne_nil (kind.byte up) block)
              (List.forall_mem_cons.mpr ⟨⟨up, rfl⟩, steps⟩) ends reads⟩
termination_by bytes.length
decreasing_by
  all_goals
    rw [List.length_cons]
    omega

theorem filter_isSingle_fused (elements : List (Option Instruction)) :
    (fused elements).reduceOption.filter isSingle = elements.reduceOption.filter isSingle := by
  induction elements with
  | nil => rfl
  | cons element elements inductionHypothesis =>
      have joins (rest : List (Option Instruction)) :
          (fuse element rest).reduceOption.filter isSingle =
            (element :: rest).reduceOption.filter isSingle := by
        unfold fuse
        split <;> simp [isSingle]
      rw [fused_cons, joins]
      cases element <;> simp [List.filter_cons, inductionHypothesis]

theorem single?_eq (c : Char) :
    single? c = ((Symbol.ofChar? c).map Symbol.instruction).filter isSingle := by
  cases known : Symbol.ofChar? c with
  | none =>
      unfold single?
      split <;> first | rfl | contradiction
  | some symbol =>
      obtain rfl := Symbol.toChar_of_ofChar? known
      cases symbol <;> rfl

theorem filter_isSingle_body (source : String) :
    (body source).filter isSingle = source.toList.filterMap single? := by
  have symbols : (source.toUTF8.data.toList.map unit?).reduceOption =
      (source.toList.filterMap Symbol.ofChar?).map Symbol.instruction := by
    rw [← reduceOption_letters, letters, ← List.reduceOption_map, List.map_map]
    rfl
  rw [body, filter_isSingle_fused, symbols, List.map_filterMap, List.filter_filterMap]
  simp only [single?_eq]

/-- Scanning finds what the bytes of a source are read as, and puts one stop behind it.  The
brackets, inputs and outputs of the source come out one by one, and no instruction without a
byte of its own.  In a text smaller than the bound, as every text in memory is, the excess of a
block fits into a word. -/
theorem scan_eq_iff_readsAs (source : String) :
    let bytes := source.toUTF8.data.toList
    (∀ code, (scan source).toList = code ++ [.stop] ↔ ReadsAs bytes code) ∧
      (source.utf8ByteSize < 2 ^ 63 → ∀ (kind : RunKind) (block : List UInt8), block <:+: bytes →
        (Int64.ofInt (kind.excess block)).toInt = kind.excess block) ∧
      (scan source).toList.count .stop = 1 ∧
      (scan source).toList.filter isSingle = source.toList.filterMap single? ∧
      (scan source).size ≤ source.utf8ByteSize + 1 := by
  intro bytes
  have scanned : (scan source).toList = body source ++ [.stop] := by
    rw [scan_eq_ending, Program.toList_ending]
  refine ⟨?reads, ?exactly, ?oneStop, ?singles, ?size⟩
  case reads =>
    intro code
    rw [scanned, List.append_left_inj]
    constructor
    · rintro rfl
      obtain ⟨code, reads⟩ := exists_readsAs bytes
      obtain rfl : body source = code := reads.reduceOption_fused
      exact reads
    · intro reads
      exact reads.reduceOption_fused
  case exactly =>
    intro small kind block within
    have shorter : block.length ≤ source.utf8ByteSize := within.length_le
    have light := kind.natAbs_excess_le block
    exact Int64.toInt_ofInt_of_le (by omega) (by omega)
  case oneStop =>
    rw [scanned, List.count_append, List.count_eq_zero.mpr (stop_not_mem_body source)]
    rfl
  case singles =>
    rw [scanned, List.filter_append, filter_isSingle_body]
    exact List.append_nil _
  case size =>
    have fewer : (body source).length ≤ source.utf8ByteSize := by
      apply Nat.le_trans (List.reduceOption_length_le _)
      apply Nat.le_trans (length_fused_le _)
      rw [List.length_map]
      exact Nat.le_refl _
    rw [← Program.length_toList, scanned, List.length_append]
    exact Nat.add_le_add_right fewer 1

/-- Two bytes that are no symbols, a run that cancels, and two runs with a blank between. -/
theorem scan_eq_iff_readsAs_of_mixed :
    let bytes := "[é><++ -.]".toUTF8.data.toList
    let code : List Instruction := [.loopStart, .move 0, .add 2, .add (-1), .output, .loopEnd]
    "[é><++ -.]".utf8ByteSize < 2 ^ 63 ∧ ReadsAs bytes code ∧
      (Int64.ofInt (RunKind.move.excess bytes)).toInt = RunKind.move.excess bytes ∧
      (scan "[é><++ -.]").toList.filter isSingle = [.loopStart, .output, .loopEnd] := by
  intro bytes code
  have small : "[é><++ -.]".utf8ByteSize < 2 ^ 63 := by decide
  obtain ⟨reads, exactly, _, singles, _⟩ := scan_eq_iff_readsAs "[é><++ -.]"
  refine ⟨small, (reads code).mp ?_, exactly small .move bytes List.infix_rfl, singles.trans ?_⟩
  · decide +kernel
  · decide +kernel

end TapeLang
