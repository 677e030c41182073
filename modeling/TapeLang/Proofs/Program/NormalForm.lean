import Mathlib.Algebra.Ring.Int.Defs
import Mathlib.Data.List.SplitBy
import TapeLang.Proofs.Machine.Staying
import TapeLang.Proofs.Source.Restoring

/-!
The normal form of a program: no stop but the last instruction, no move or addition of nothing,
and no two neighbours of one kind of run.  It is what scanning the encoding of the program
gives, so that a program is restored if and only if it is in normal form already.
-/

namespace TapeLang

namespace Instruction

/-- Whether nothing is left of an instruction in normal form: stops, and moves and additions
of nothing. -/
def isIdle (instruction : Instruction) : Bool :=
  instruction = .stop || instruction = .move 0 || instruction = .add 0

/-- Whether an instruction stands for a single symbol: brackets, input and output. -/
def isSingle : Instruction → Bool
  | loopStart | loopEnd | input | output => true
  | _ => false

/-- The sum of all distances and amounts, in words. -/
def total (block : List Instruction) : Int64 := .ofInt (block.map fun i => i.payload.toInt).sum

/-- A block of neighbours of one kind as a single instruction. -/
def merged (block : List Instruction) : Option Instruction :=
  block.head?.map fun first =>
    match first.runKind? with
    | some kind => kind.instruction (total block)
    | none => first

/-- Code with the idle instructions left out, and then with one instruction in place of every
block of neighbours of one kind. -/
def normalized (code : List Instruction) : List Instruction :=
  ((code.filter fun i => !i.isIdle).splitBy isAkin).filterMap merged

end Instruction

namespace Program

open Instruction

def normalForm (p : Program) : Program := .ending (normalized p.toList)

structure IsNormal (p : Program) : Prop where
  noInnerStop : .stop ∉ p.toList.dropLast
  noZero : ∀ instruction ∈ p.toList, instruction ≠ .move 0 ∧ instruction ≠ .add 0
  noNeighbours : p.toList.IsChain fun first second => ¬ first.isAkin second

end Program

namespace Instruction

theorem total_cons (first : Instruction) (block : List Instruction) :
    total (first :: block) = first.payload + total block := by
  simp [total, Int64.ofInt_add]

theorem merged_singleton (instruction : Instruction) :
    merged [instruction] = some instruction := by
  cases instruction <;> simp [merged, runKind?, total, RunKind.instruction]

theorem isIdle_eq_not_isEncoded (instruction : Instruction) :
    instruction.isIdle = !instruction.isEncoded := by
  have zero (n : Int64) : n = 0 ↔ n.toInt = 0 := Int64.toInt_inj.symm
  cases instruction <;> simp [isIdle, isEncoded, symbols, zero]

theorem isEncoded_iff (instruction : Instruction) :
    instruction.isEncoded ↔
      instruction ≠ .stop ∧ instruction ≠ .move 0 ∧ instruction ≠ .add 0 := by
  rw [← Bool.not_not instruction.isEncoded, ← isIdle_eq_not_isEncoded]
  simp [isIdle, and_assoc]

theorem filter_not_isIdle (code : List Instruction) :
    (code.filter fun i => !i.isIdle) = code.filter isEncoded := by
  simp only [isIdle_eq_not_isEncoded, Bool.not_not]

section Blocks

variable {first second instruction : Instruction} {block : List Instruction}
  {blocks : List (List Instruction)}

theorem fuse_map_some {code : List Instruction}
    (apart : ∀ other ∈ code.head?, ¬ instruction.isAkin other) :
    fuse (some instruction) (code.map some) = (instruction :: code).map some := by
  apply fuse_of_not_isAkin
  intro other isNext
  rw [List.head?_map, Option.mem_def, Option.map_eq_some_iff] at isNext
  obtain ⟨_, isHead, same⟩ := isNext
  cases same
  exact apart other isHead

/-- Joining a block of akin neighbours, one after the other, puts their sum in their place. -/
theorem foldr_fuse_block (akin : block.IsChain fun first second => first.isAkin second)
    (joined : merged block = some instruction) (rest : List (Option Instruction)) :
    (block.map some).foldr fuse rest = fuse (some instruction) rest := by
  induction block generalizing instruction with
  | nil => contradiction
  | cons first block inductionHypothesis =>
      cases block with
      | nil =>
          rw [merged_singleton] at joined
          cases joined
          rfl
      | cons second block =>
          rw [List.isChain_cons_cons] at akin
          obtain ⟨kind, n, m, rfl, rfl⟩ := (isAkin_iff first second).mp akin.1
          have whole : instruction =
              kind.instruction (n + total (kind.instruction m :: block)) := by
            simpa [merged, total_cons] using joined.symm
          have later : merged (kind.instruction m :: block) =
              some (kind.instruction (total (kind.instruction m :: block))) := by
            simp [merged]
          rw [List.map_cons, List.foldr_cons, inductionHypothesis akin.2 later, fuse_fuse, whole]

theorem runKind?_merged (joined : merged block = some instruction) :
    instruction.runKind? = block.head?.bind runKind? := by
  cases block with
  | nil => contradiction
  | cons first block =>
      simp only [merged, List.head?_cons, Option.map_some, Option.some.injEq] at joined
      subst joined
      cases kind : first.runKind? <;> simp [kind]

theorem runKind?_getLast (akin : (first :: block).IsChain fun first second => first.isAkin second)
    (nonempty : first :: block ≠ []) :
    ((first :: block).getLast nonempty).runKind? = first.runKind? := by
  induction block generalizing first with
  | nil => rfl
  | cons second block inductionHypothesis =>
      rw [List.isChain_cons_cons] at akin
      obtain ⟨kind, n, m, rfl, rfl⟩ := (isAkin_iff first second).mp akin.1
      rw [List.getLast_cons (List.cons_ne_nil _ _), inductionHypothesis akin.2]
      simp

/-- Blocks of akin neighbours, as long as can be. -/
structure AreBlocks (blocks : List (List Instruction)) : Prop where
  noneEmpty : [] ∉ blocks
  akin : ∀ block ∈ blocks, block.IsChain fun first second => first.isAkin second
  apart : blocks.IsChain fun block next => ∃ (some : block ≠ []) (more : next ≠ []),
    (block.getLast some).isAkin (next.head more) = false

theorem areBlocks_splitBy (code : List Instruction) : AreBlocks (code.splitBy isAkin) where
  noneEmpty := List.nil_notMem_splitBy isAkin code
  akin _ := List.isChain_of_mem_splitBy
  apart := List.isChain_getLast_head_splitBy isAkin code

namespace AreBlocks

theorem tail (areBlocks : AreBlocks (block :: blocks)) : AreBlocks blocks where
  noneEmpty inBlocks := areBlocks.noneEmpty (List.mem_cons_of_mem _ inBlocks)
  akin other inBlocks := areBlocks.akin other (List.mem_cons_of_mem _ inBlocks)
  apart := areBlocks.apart.tail

/-- The first block comes to an instruction that is not akin to the next one. -/
theorem exists_merged (areBlocks : AreBlocks (block :: blocks)) :
    ∃ instruction, merged block = some instruction ∧
      ∀ other ∈ (blocks.filterMap merged).head?, ¬ instruction.isAkin other := by
  obtain ⟨first, rest, rfl⟩ : ∃ first rest, block = first :: rest := by
    apply List.exists_cons_of_ne_nil
    rintro rfl
    exact areBlocks.noneEmpty List.mem_cons_self
  obtain ⟨instruction, joined⟩ : ∃ instruction, merged (first :: rest) = some instruction :=
    ⟨_, rfl⟩
  refine ⟨instruction, joined, ?_⟩
  intro other isNext
  cases blocks with
  | nil => contradiction
  | cons next blocks =>
      obtain ⟨nonempty, more, differs⟩ := (List.isChain_cons_cons.mp areBlocks.apart).1
      obtain ⟨head, later, rfl⟩ := List.exists_cons_of_ne_nil more
      have joinedNext : merged (head :: later) = some other := isNext
      have chain := areBlocks.akin _ List.mem_cons_self
      simp only [isAkin, runKind?_getLast chain, List.head_cons] at differs
      simp only [isAkin, runKind?_merged joined, runKind?_merged joinedNext, List.head?_cons,
        Option.bind_some, differs]
      simp

theorem fused_flatten (areBlocks : AreBlocks blocks) :
    fused (blocks.flatten.map some) = (blocks.filterMap merged).map some := by
  induction blocks with
  | nil => rfl
  | cons block blocks inductionHypothesis =>
      obtain ⟨instruction, joined, apart⟩ := areBlocks.exists_merged
      have akin := areBlocks.akin block List.mem_cons_self
      have later := inductionHypothesis areBlocks.tail
      rw [List.flatten_cons, List.map_append, fused_append, later,
        foldr_fuse_block akin joined, List.filterMap_cons_some joined, fuse_map_some apart]

theorem isChain_merged (areBlocks : AreBlocks blocks) :
    (blocks.filterMap merged).IsChain fun first second => ¬ first.isAkin second := by
  induction blocks with
  | nil => exact .nil
  | cons block blocks inductionHypothesis =>
      obtain ⟨instruction, joined, apart⟩ := areBlocks.exists_merged
      rw [List.filterMap_cons_some joined]
      exact List.isChain_cons.mpr ⟨apart, inductionHypothesis areBlocks.tail⟩

end AreBlocks

end Blocks

section Normalized

variable (code : List Instruction)

theorem map_some_normalized :
    (normalized code).map some = fused ((code.filter isEncoded).map some) := by
  have blocks := areBlocks_splitBy (code.filter isEncoded)
  rw [normalized, filter_not_isIdle, ← blocks.fused_flatten, List.flatten_splitBy]

theorem isChain_normalized :
    (normalized code).IsChain fun first second => ¬ first.isAkin second :=
  (areBlocks_splitBy _).isChain_merged

theorem length_fused_le (elements : List (Option Instruction)) :
    (fused elements).length ≤ elements.length := by
  induction elements with
  | nil => exact Nat.le_refl 0
  | cons element elements inductionHypothesis =>
      have joins (rest : List (Option Instruction)) :
          (fuse element rest).length ≤ rest.length + 1 := by
        unfold fuse
        split <;> simp
      exact Nat.le_trans (joins _) (Nat.succ_le_succ inductionHypothesis)

theorem length_normalized_le : (normalized code).length ≤ (code.filter isEncoded).length := by
  have shorter := length_fused_le ((code.filter isEncoded).map some)
  rwa [← map_some_normalized, List.length_map, List.length_map] at shorter

variable {code}

/-- Code without idle instructions and akin neighbours stays as it is. -/
theorem normalized_eq_self (noIdle : ∀ instruction ∈ code, instruction.isEncoded)
    (noNeighbours : code.IsChain fun first second => ¬ first.isAkin second) :
    normalized code = code := by
  have kept : code.filter isEncoded = code := List.filter_eq_self.mpr noIdle
  apply (List.map_inj_right fun _ _ => Option.some.inj).mp
  rw [map_some_normalized, kept]
  clear noIdle kept
  induction code with
  | nil => rfl
  | cons instruction code inductionHypothesis =>
      rw [List.isChain_cons] at noNeighbours
      have later := inductionHypothesis noNeighbours.2
      rw [List.map_cons, fused_cons, later, fuse_map_some noNeighbours.1, List.map_cons]

theorem normalized_eq_self_iff :
    normalized code = code ↔
      (∀ instruction ∈ code, instruction.isEncoded) ∧
        code.IsChain fun first second => ¬ first.isAkin second := by
  constructor
  · intro same
    constructor
    · have shorter := length_normalized_le code
      rw [same] at shorter
      exact List.length_filter_eq_length_iff.mp
        (Nat.le_antisymm (List.length_filter_le _ _) shorter)
    · rw [← same]
      exact isChain_normalized code
  · rintro ⟨noIdle, noNeighbours⟩
    exact normalized_eq_self noIdle noNeighbours

end Normalized

theorem length_symbols (instruction : Instruction) :
    instruction.symbols.length =
      instruction.payload.toInt.natAbs + if instruction.isSingle then 1 else 0 := by
  cases instruction <;> simp [symbols, payload, isSingle]

end Instruction

namespace Program

open Instruction

variable {p : Program}

theorem length_encoding (p : Program) :
    p.encoding.length = weight p.toList + p.toList.countP isSingle := by
  rw [← String.length_toList, toList_encoding]
  generalize p.toList = code
  induction code with
  | nil => rfl
  | cons instruction code inductionHypothesis =>
      rw [List.flatMap_cons, List.length_append, inductionHypothesis, List.length_map,
        length_symbols, List.countP_cons, weight]
      omega

theorem scan_encoding (p : Program) : scan p.encoding = p.normalForm := by
  rw [scan_eq_ending, normalForm, body_encoding, ← map_some_normalized]
  simp [List.reduceOption]

theorem ending_injective {code other : List Instruction}
    (same : Program.ending code = Program.ending other) : code = other := by
  have lists := congrArg Program.toList same
  rwa [toList_ending, toList_ending, List.append_left_inj] at lists

/-- Scanning the encoding restores the programs in normal form, and no other ones. -/
theorem normalForm_eq_self_iff (p : Program) : p.normalForm = p ↔ p.IsNormal := by
  obtain ⟨body, ends⟩ := p.exists_toList_eq
  have whole : p = .ending body := by
    apply ext_code
    rw [← Array.toList_inj]
    exact ends.trans (toList_ending body).symm
  have stopless : normalized p.toList = normalized body := by
    rw [ends, normalized, List.filter_append]
    simp [normalized, isIdle]
  have restored : p.normalForm = p ↔ normalized body = body := by
    rw [normalForm, stopless, whole]
    exact ⟨ending_injective, congrArg Program.ending⟩
  have inner : p.toList.dropLast = body := by rw [ends, List.dropLast_concat]
  rw [restored, normalized_eq_self_iff]
  constructor
  · rintro ⟨noIdle, apart⟩
    refine ⟨?noInnerStop, ?noZero, ?noNeighbours⟩
    case noInnerStop =>
      rw [inner]
      intro stops
      exact ((isEncoded_iff _).mp (noIdle _ stops)).1 rfl
    case noZero =>
      intro instruction inCode
      rw [ends, List.mem_append, List.mem_singleton] at inCode
      rcases inCode with inBody | rfl
      · exact ((isEncoded_iff _).mp (noIdle instruction inBody)).2
      · simp
    case noNeighbours =>
      rw [ends, List.isChain_append]
      refine ⟨apart, List.isChain_singleton _, ?_⟩
      rintro last _ final isStop
      obtain rfl : Instruction.stop = final := Option.some.inj isStop
      cases last <;> simp [isAkin, runKind?]
  · intro normal
    constructor
    · intro instruction inBody
      apply (isEncoded_iff _).mpr
      refine ⟨?_, normal.noZero instruction ?_⟩
      · rintro rfl
        exact normal.noInnerStop (inner ▸ inBody)
      · rw [ends]
        exact List.mem_append_left _ inBody
    · have apart := normal.noNeighbours
      rw [ends, List.isChain_append] at apart
      exact apart.1

/-- The first oversized instruction is refused, and nothing else. -/
theorem encode_eq_error_iff (p : Program) (error : Error) :
    p.encode = .error error ↔
      ∃ position instruction, p.get? position = some instruction ∧ instruction.isOversized ∧
        (∀ earlier < position, ∀ other, p.get? earlier = some other → ¬ other.isOversized) ∧
        error = .oversizedInstruction instruction position := by
  unfold encode
  split
  · next position found =>
      rw [Array.findFinIdx?_eq_some_iff] at found
      obtain ⟨oversized, first⟩ := found
      have here : p.get? position = some p.code[position] := Array.getElem?_eq_getElem position.isLt
      have before : ∀ earlier < position.val, ∀ other, p.get? earlier = some other →
          ¬ other.isOversized := by
        intro earlier ordered other found
        obtain ⟨inRange, rfl⟩ := Array.getElem?_eq_some_iff.mp found
        exact first ⟨earlier, inRange⟩ ordered
      constructor
      · intro refused
        exact ⟨position, _, here, oversized, before, (Except.error.inj refused).symm⟩
      · rintro ⟨other, instruction, there, alsoOversized, beforeOther, rfl⟩
        have same : position.val = other := by
          apply Nat.le_antisymm
          · by_contra later
            exact before other (Nat.lt_of_not_le later) instruction there alsoOversized
          · by_contra earlier
            exact beforeOther position (Nat.lt_of_not_le earlier) _ here oversized
        subst same
        rw [Option.some.inj (here.symm.trans there)]
  · next none =>
      rw [Array.findFinIdx?_eq_none_iff] at none
      constructor
      · intro refused
        contradiction
      · rintro ⟨position, instruction, found, oversized, _⟩
        exact absurd oversized (none instruction (Array.mem_of_getElem? found))

theorem not_isOversized_of_encode {source : String} (encoded : p.encode = .ok source) :
    ∀ instruction ∈ p.toList, ¬ instruction.isOversized := by
  unfold encode at encoded
  split at encoded
  · contradiction
  · next none =>
      rw [Array.findFinIdx?_eq_none_iff] at none
      intro instruction inCode
      exact none instruction (Array.mem_toList_iff.mp inCode)

theorem encode_of_not_isOversized
    (fits : ∀ instruction ∈ p.toList, ¬ instruction.isOversized) : p.encode = .ok p.encoding := by
  have none : p.code.findFinIdx? isOversized = none := by
    rw [Array.findFinIdx?_eq_none_iff]
    intro instruction inCode
    exact fits instruction (Array.mem_toList_iff.mpr inCode)
  rw [Program.encode, none]

end Program

open Instruction

/-- Encoding refuses a program for its first oversized instruction.  Otherwise the source has a
symbol for every unit of a distance or an amount and for every bracket, input and output, and
scanning it gives the normal form of the program. -/
theorem scan_encode_eq_normalForm (p : Program) :
    ((∃ error, p.encode = .error error) ↔
        ∃ instruction ∈ p.toList, sourceSizeLimit < instruction.payload.toInt.natAbs) ∧
      (∀ error, p.encode = .error error →
        ∃ position instruction, p.get? position = some instruction ∧
          sourceSizeLimit < instruction.payload.toInt.natAbs ∧
          (∀ earlier < position, ∀ other, p.get? earlier = some other →
            other.payload.toInt.natAbs ≤ sourceSizeLimit) ∧
          error = .oversizedInstruction instruction position ∧
          error.message = "Validation error: Instruction " ++ instruction.text ++ " at position " ++
            toString position ++ " is too large to encode") ∧
      ∀ source, p.encode = .ok source →
        source.length = weight p.toList + p.toList.countP isSingle ∧
          scan source = p.normalForm ∧ (scan source = p ↔ p.IsNormal) := by
  have oversized_iff (instruction : Instruction) :
      instruction.isOversized ↔ sourceSizeLimit < instruction.payload.toInt.natAbs :=
    decide_eq_true_iff
  refine ⟨⟨?refused, ?refuses⟩, ?first, ?encoded⟩
  case refused =>
    rintro ⟨error, refused⟩
    obtain ⟨position, instruction, found, oversized, _⟩ := (p.encode_eq_error_iff error).mp refused
    exact ⟨instruction, Array.mem_toList_iff.mpr (Array.mem_of_getElem? found),
      (oversized_iff instruction).mp oversized⟩
  case refuses =>
    rintro ⟨instruction, inCode, oversized⟩
    cases encoded : p.encode with
    | error error => exact ⟨error, rfl⟩
    | ok source =>
        have fits := p.not_isOversized_of_encode encoded instruction inCode
        exact absurd ((oversized_iff instruction).mpr oversized) fits
  case first =>
    intro error refused
    obtain ⟨position, instruction, found, oversized, first, rfl⟩ :=
      (p.encode_eq_error_iff error).mp refused
    refine ⟨position, instruction, found, (oversized_iff instruction).mp oversized, ?_, rfl, rfl⟩
    intro earlier before other found
    exact Nat.le_of_not_lt fun large =>
      first earlier before other found ((oversized_iff other).mpr large)
  case encoded =>
    intro source encoded
    obtain rfl := Program.eq_encoding_of_encode encoded
    refine ⟨p.length_encoding, p.scan_encoding, ?_⟩
    rw [p.scan_encoding]
    exact p.normalForm_eq_self_iff

/-- Additions that meet over a move by nothing and cancel out leave an addition of nothing.  Of
two oversized instructions the first one is named. -/
theorem scan_encode_eq_normalForm_of_canceling :
    let p := Program.ofList [.add 1, .move 0, .add (-1), .stop, .output, .add 0]
    let q := Program.ofList [.output, .move 16777217, .add (-16777217)]
    let error := Error.oversizedInstruction (.move 16777217) 1
    (p.encode = .ok "+-." ∧ "+-.".length = weight p.toList + p.toList.countP isSingle ∧
        scan "+-." = .ofList [.add 0, .output] ∧ scan "+-." ≠ p) ∧
      q.encode = .error error ∧
      error.message =
        "Validation error: Instruction MOVE 16777217 at position 1 is too large to encode" := by
  intro p q error
  have encoded : p.encode = .ok "+-." := by decide +kernel
  obtain ⟨_, _, restores⟩ := scan_encode_eq_normalForm p
  obtain ⟨length, scanned, restored⟩ := restores "+-." encoded
  refine ⟨⟨encoded, length, ?_, ?_⟩, ?_⟩
  · rw [scanned]
    decide +kernel
  · rw [Ne, restored]
    intro normal
    exact absurd normal.noInnerStop (by decide +kernel)
  · have refused : q.encode = .error error := by decide +kernel
    obtain ⟨_, first, _⟩ := scan_encode_eq_normalForm q
    obtain ⟨position, instruction, _, _, _, same, message⟩ := first error refused
    obtain ⟨rfl, rfl⟩ := Error.oversizedInstruction.inj same
    refine ⟨refused, message.trans ?_⟩
    decide +kernel

end TapeLang
