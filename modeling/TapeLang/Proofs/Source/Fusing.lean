import Mathlib.Data.List.ReduceOption
import TapeLang.Source.Encoding
import TapeLang.Proofs.Machine.Condensing

/-!
What the scanner does, without its state.  Each byte of a source is an instruction or a
gap, and `fused` joins neighbours of one kind from the right.  Gaps keep apart what they
stand between.  Since joining is associative, it comes to the same whether single steps or
whole runs are joined, and this is what encoding and scanning again comes to.
-/

namespace TapeLang

def Symbol.instruction : Symbol → Instruction
  | right => .move 1
  | left => .move (-1)
  | increment => .add 1
  | decrement => .add (-1)
  | output => .output
  | input => .input
  | loopStart => .loopStart
  | loopEnd => .loopEnd

/-- The instruction of a single byte, or the gap that it is. -/
def unit? (byte : UInt8) : Option Instruction := (Symbol.ofByte? byte).map Symbol.instruction

namespace Instruction

def runKind? : Instruction → Option RunKind
  | move _ => some .move
  | add _ => some .add
  | _ => none

/-- Whether both are moves or both are additions. -/
def isAkin (first second : Instruction) : Bool :=
  first.runKind?.isSome && first.runKind? == second.runKind?

/-- Puts an element in front, as one with the first if both are moves or both are
additions. -/
def fuse : Option Instruction → List (Option Instruction) → List (Option Instruction)
  | some (move first), some (move second) :: rest => some (move (first + second)) :: rest
  | some (add first), some (add second) :: rest => some (add (first + second)) :: rest
  | element, rest => element :: rest

def fused (elements : List (Option Instruction)) : List (Option Instruction) :=
  elements.foldr fuse []

theorem fused_nil : fused [] = [] := rfl

theorem fused_cons (element : Option Instruction) (rest : List (Option Instruction)) :
    fused (element :: rest) = fuse element (fused rest) := rfl

theorem fused_append (front back : List (Option Instruction)) :
    fused (front ++ back) = front.foldr fuse (fused back) := List.foldr_append

theorem fuse_fuse (kind : RunKind) (first second : Int64) (rest : List (Option Instruction)) :
    fuse (some (kind.instruction first)) (fuse (some (kind.instruction second)) rest) =
      fuse (some (kind.instruction (first + second))) rest := by
  cases kind <;> rcases rest with _ | ⟨_ | ⟨_ | _⟩, _⟩ <;>
    simp [RunKind.instruction, fuse, Int64.add_assoc]

theorem fuse_of_ne {kind other : RunKind} (differs : kind ≠ other) (first second : Int64)
    (rest : List (Option Instruction)) :
    fuse (some (kind.instruction first)) (fuse (some (other.instruction second)) rest) =
      some (kind.instruction first) :: fuse (some (other.instruction second)) rest := by
  cases kind <;> cases other <;>
    first | contradiction | rcases rest with _ | ⟨_ | ⟨_ | _⟩, _⟩ <;> rfl

theorem fuse_of_not_isStraight {instruction : Instruction} (fixed : instruction.isStraight = false)
    (rest : List (Option Instruction)) :
    fuse (some instruction) rest = some instruction :: rest := by
  cases instruction <;> first | contradiction | rfl

theorem fuse_cons_of_not_isStraight {instruction : Instruction}
    (fixed : instruction.isStraight = false) (element : Option Instruction)
    (rest : List (Option Instruction)) :
    fuse element (some instruction :: rest) = element :: some instruction :: rest := by
  rcases element with _ | element
  · rfl
  · cases instruction <;> first | contradiction | cases element <;> rfl

theorem fuse_cons_none (element : Option Instruction) (rest : List (Option Instruction)) :
    fuse element (none :: rest) = element :: none :: rest := by
  rcases element with _ | ⟨_ | _⟩ <;> rfl

theorem isAkin_iff (first second : Instruction) :
    first.isAkin second ↔
      ∃ (kind : RunKind) (n m : Int64), first = kind.instruction n ∧ second = kind.instruction m := by
  constructor
  · intro akin
    cases first <;> cases second <;> try contradiction
    · exact ⟨.move, _, _, rfl, rfl⟩
    · exact ⟨.add, _, _, rfl, rfl⟩
  · rintro ⟨kind, n, m, rfl, rfl⟩
    cases kind <;> rfl

theorem instruction_isAkin_iff (kind : RunKind) (n : Int64) (other : Instruction) :
    (kind.instruction n).isAkin other ↔ ∃ m, other = kind.instruction m := by
  constructor
  · intro akin
    cases kind <;> cases other <;> first | contradiction | exact ⟨_, rfl⟩
  · rintro ⟨m, rfl⟩
    cases kind <;> rfl

@[simp] theorem runKind?_instruction (kind : RunKind) (n : Int64) :
    (kind.instruction n).runKind? = some kind := by
  cases kind <;> rfl

@[simp] theorem payload_instruction (kind : RunKind) (n : Int64) :
    (kind.instruction n).payload = n := by
  cases kind <;> rfl

/-- Only akin neighbours are joined. -/
theorem fuse_of_not_isAkin {instruction : Instruction} {rest : List (Option Instruction)}
    (apart : ∀ other, some other ∈ rest.head? → ¬ instruction.isAkin other) :
    fuse (some instruction) rest = some instruction :: rest := by
  rcases rest with _ | ⟨_ | other, rest⟩
  · cases instruction <;> rfl
  · exact fuse_cons_none _ rest
  · have differs := apart other rfl
    cases instruction <;> cases other <;> first | rfl | exact absurd rfl differs

theorem fuse_cons_instruction (kind : RunKind) (first second : Int64)
    (rest : List (Option Instruction)) :
    fuse (some (kind.instruction first)) (some (kind.instruction second) :: rest) =
      some (kind.instruction (first + second)) :: rest := by
  cases kind <;> rfl

@[simp] theorem fuse_nil (element : Option Instruction) : fuse element [] = [element] := by
  rcases element with _ | ⟨_ | _⟩ <;> rfl

/-- Joining looks no further than the first element. -/
theorem fuse_append (element : Option Instruction) {front : List (Option Instruction)}
    (nonempty : front ≠ []) (back : List (Option Instruction)) :
    fuse element (front ++ back) = fuse element front ++ back := by
  obtain ⟨first, front, rfl⟩ := List.exists_cons_of_ne_nil nonempty
  rw [List.cons_append]
  unfold fuse
  split <;> simp_all

/-- A gap keeps apart what is in front of it and what is behind it. -/
theorem fused_append_none (front back : List (Option Instruction)) :
    fused (front ++ none :: back) = fused front ++ none :: fused back := by
  have kept (element : Option Instruction) (before after : List (Option Instruction)) :
      fuse element (before ++ none :: after) = fuse element before ++ none :: after := by
    rcases before with _ | ⟨next, before⟩
    · rw [List.nil_append, fuse_cons_none, fuse_nil, List.singleton_append]
    · exact fuse_append element (List.cons_ne_nil next before) (none :: after)
  induction front with
  | nil => rfl
  | cons element front inductionHypothesis =>
      rw [List.cons_append, fused_cons, inductionHypothesis, kept, fused_cons]

/-- Joining brings in nothing but moves and additions. -/
theorem forall_fuse {property : Instruction → Prop} {element : Option Instruction}
    {rest : List (Option Instruction)}
    (moves : ∀ distance, property (move distance)) (adds : ∀ amount, property (add amount))
    (here : ∀ instruction, element = some instruction → property instruction)
    (there : ∀ instruction, some instruction ∈ rest → property instruction) :
    ∀ instruction, some instruction ∈ fuse element rest → property instruction := by
  intro instruction inFused
  unfold fuse at inFused
  split at inFused
  · rcases List.mem_cons.mp inFused with same | inRest
    · cases same
      exact moves _
    · exact there instruction (List.mem_cons_of_mem _ inRest)
  · rcases List.mem_cons.mp inFused with same | inRest
    · cases same
      exact adds _
    · exact there instruction (List.mem_cons_of_mem _ inRest)
  · rcases List.mem_cons.mp inFused with same | inRest
    · exact here instruction same.symm
    · exact there instruction inRest

end Instruction

open Instruction

namespace Scanner

/-- What comes of a scanner if the rest of the source comes to `rest`. -/
def result (s : Scanner) (rest : List (Option Instruction)) : List Instruction :=
  s.emitted.toList ++
    (match s.run with
      | none => rest
      | some (kind, net) => fuse (some (kind.instruction net)) rest).reduceOption

variable (s : Scanner) (rest : List (Option Instruction))

theorem result_close : s.close.result rest = s.result (none :: rest) := by
  unfold close
  rcases running : s.run with _ | ⟨kind, net⟩
  · simp [result, running]
  · simp [result, running, fuse_cons_none]

theorem result_extend (kind : RunKind) (amount : Int64) :
    (s.extend kind amount).result rest =
      s.result (fuse (some (kind.instruction amount)) rest) := by
  unfold extend
  rcases running : s.run with _ | ⟨current, net⟩
  · simp [result, running]
  · by_cases same : current = kind
    · subst same
      simp [result, running, fuse_fuse]
    · simp [result, running, same, close, fuse_of_ne]

theorem result_emit {instruction : Instruction} (fixed : instruction.isStraight = false) :
    (s.emit instruction).result rest = s.result (fuse (some instruction) rest) := by
  rw [fuse_of_not_isStraight fixed]
  unfold emit close
  rcases running : s.run with _ | ⟨kind, net⟩
  · simp [result, running]
  · simp [result, running, fuse_cons_of_not_isStraight fixed]

theorem result_feed (byte : UInt8) :
    (s.feed byte).result rest = s.result (fuse (unit? byte) rest) := by
  unfold feed unit?
  rcases Symbol.ofByte? byte with _ | symbol
  · exact s.result_close rest
  · cases symbol with
    | right | left => exact s.result_extend rest .move _
    | increment | decrement => exact s.result_extend rest .add _
    | output | input | loopStart | loopEnd => exact s.result_emit rest rfl

theorem result_foldl (bytes : List UInt8) :
    (bytes.foldl feed s).result [] = s.result (fused (bytes.map unit?)) := by
  induction bytes generalizing s with
  | nil => rfl
  | cons byte bytes inductionHypothesis =>
      rw [List.foldl_cons, inductionHypothesis, result_feed]
      rfl

theorem toList_emitted_close : s.close.emitted.toList = s.result [] := by
  unfold close
  rcases running : s.run with _ | ⟨_ | _, net⟩ <;> simp [result, running, fuse, RunKind.instruction]

theorem finish_eq : s.finish = .ending (s.result []) := by
  apply Program.ext_code
  rw [finish, Program.ending, ← toList_emitted_close]

end Scanner

def body (source : String) : List Instruction :=
  (fused (source.toUTF8.data.toList.map unit?)).reduceOption

theorem scanBytes_eq_ending (source : ByteArray) :
    scanBytes source = .ending (fused (source.data.toList.map unit?)).reduceOption := by
  rw [scanBytes_eq_foldl, Scanner.finish_eq, Scanner.result_foldl]
  rfl

theorem scan_eq_ending (source : String) : scan source = .ending (body source) :=
  scanBytes_eq_ending source.toUTF8

end TapeLang
