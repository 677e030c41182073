import TapeLang.Proofs.Brackets.Partners
import TapeLang.Proofs.Source.Weight
import TapeLang.Proofs.Streams.Serving

/-!
The meaning of a source, character by character.  A walk goes through the text on a tape
without ends, and knows nothing of instructions, buffers or tables.
-/

namespace TapeLang

open Brackets

def sourceText (source : String) : List Char := source.toUTF8.data.toList.map Char.ofUInt8

structure Walk where
  position : Nat := 0
  tape : Tape.View := .blank
  unread : List UInt8
  output : List UInt8 := []

namespace Walk

/-- Behind the partner of the loop start at a position, or at the end of the text. -/
def afterPartner (text : List Char) (position : Nat) : Nat :=
  match partner? '[' ']' 0 (text.drop (position + 1)) with
  | some distance => position + 1 + distance + 1
  | none => text.length

/-- At the partner of the loop end at a position, or at the start of the text. -/
def atPartner (text : List Char) (position : Nat) : Nat :=
  match partner? ']' '[' 0 (text.take position).reverse with
  | some distance => position - 1 - distance
  | none => 0

def next (w : Walk) : Walk := { w with position := w.position + 1 }

def read (rule : EndOfInput) (w : Walk) : Walk :=
  match w.unread with
  | [] => { w with tape := w.tape.endInput rule }.next
  | value :: rest => { w with tape := w.tape.write value.toUInt64, unread := rest }.next

def enterLoop (text : List Char) (w : Walk) : Walk :=
  if w.tape.current = 0 then { w with position := afterPartner text w.position } else w.next

def repeatLoop (text : List Char) (w : Walk) : Walk :=
  if w.tape.current = 0 then w.next else { w with position := atPartner text w.position }

def act (rule : EndOfInput) (text : List Char) (w : Walk) : Char → Walk
  | '>' => { w with tape := w.tape.shift 1 }.next
  | '<' => { w with tape := w.tape.shift (-1) }.next
  | '+' => { w with tape := w.tape.add 1 }.next
  | '-' => { w with tape := w.tape.add (-1) }.next
  | '.' => { w with output := w.output ++ [w.tape.current.toUInt8] }.next
  | ',' => w.read rule
  | '[' => w.enterLoop text
  | ']' => w.repeatLoop text
  | _ => w.next

/-- Walks on to the end of the text, unless that takes more than `fuel` steps. -/
def run (rule : EndOfInput) (text : List Char) : Nat → Walk → Option Walk
  | 0, _ => none
  | fuel + 1, w =>
      match text[w.position]? with
      | none => some w
      | some c => run rule text fuel (w.act rule text c)

end Walk

/-- The instruction of a single character.  Comments add nothing. -/
def unitOf : Char → Instruction
  | '>' => .move 1
  | '<' => .move (-1)
  | '+' => .add 1
  | '-' => .add (-1)
  | '.' => .output
  | ',' => .input
  | '[' => .loopStart
  | ']' => .loopEnd
  | _ => .add 0

theorem eq_toUInt8_of_ofUInt8 {byte : UInt8} {c : Char} (same : Char.ofUInt8 byte = c) :
    byte = c.toUInt8 := by
  rw [← same]
  exact (UInt8.toUInt8_toUInt32 byte).symm

theorem unitOf_ofUInt8 (byte : UInt8) : unitOf (.ofUInt8 byte) = (unit? byte).getD (.add 0) := by
  unfold unit? Symbol.ofByte?
  split <;> try rfl
  -- The byte is no symbol, and neither is its character.
  unfold unitOf
  split <;> try rfl
  all_goals
    next same =>
      have := eq_toUInt8_of_ofUInt8 same
      contradiction

theorem forwardMark_unitOf (c : Char) : (unitOf c).forwardMark = charMark '[' ']' c := by
  unfold unitOf charMark
  split <;> simp_all [Instruction.forwardMark]

theorem backwardMark_unitOf (c : Char) : (unitOf c).backwardMark = charMark ']' '[' c := by
  unfold unitOf charMark
  split <;> simp_all [Instruction.backwardMark]

def unitProgram (text : List Char) : Program := .ending (text.map unitOf)

@[simp] theorem toList_unitProgram (text : List Char) :
    (unitProgram text).toList = text.map unitOf ++ [.stop] := Program.toList_ending _

section Targets

variable {text : List Char} {position : Nat}

theorem afterLoop_unitProgram (inRange : position < text.length) :
    afterLoop (unitProgram text).code position = Walk.afterPartner text position := by
  have marks : Instruction.forwardMark ∘ unitOf = charMark '[' ']' := funext forwardMark_unitOf
  have scanned := afterLoop_add_length_beyond (toList_unitProgram text)
    (by simpa using inRange)
  rw [← List.map_drop, beyond_map, marks, beyond_charMark (by decide)] at scanned
  rw [Walk.afterPartner]
  cases found : partner? '[' ']' 0 (text.drop (position + 1)) with
  | none => simpa [found] using scanned
  | some distance =>
      have inside := partner?_lt_length found
      simp only [found, Option.elim_some, List.length_map, List.length_drop] at scanned inside ⊢
      omega

theorem loopHead_unitProgram (inRange : position < text.length) :
    loopHead (unitProgram text).code position = Walk.atPartner text position := by
  have marks : Instruction.backwardMark ∘ unitOf = charMark ']' '[' := funext backwardMark_unitOf
  rw [loopHead_eq_length_beyond (toList_unitProgram text) (by simpa using Nat.le_of_lt inRange),
    ← List.map_take, ← List.map_reverse, beyond_map, marks, beyond_charMark (by decide),
    Walk.atPartner]
  cases found : partner? ']' '[' 0 (text.take position).reverse with
  | none => rfl
  | some distance =>
      have inside := partner?_lt_length found
      simp only [Option.elim_some, List.length_map, List.length_drop, List.length_reverse,
        List.length_take] at inside ⊢
      omega

end Targets

end TapeLang
