import Mathlib.Data.List.Infix
import TapeLang.Proofs.Brackets.Scanning

/-!
Brackets that have their partners in a part of the code.  Counting them is enough: a scan that
begins inside of such a part ends there, whatever stands in front of the part or behind it.
-/

namespace TapeLang

open Brackets

/-- No loop end lacks its partner. -/
def NoStrayEnd (part : List Instruction) : Prop :=
  ∀ front, front <+: part → front.count .loopEnd ≤ front.count .loopStart

instance (part : List Instruction) : Decidable (NoStrayEnd part) :=
  decidable_of_iff (∀ front ∈ part.inits, front.count .loopEnd ≤ front.count .loopStart)
    (forall_congr' fun front => imp_congr_left (List.mem_inits front part))

/-- No bracket lacks its partner. -/
structure Bracketed (part : List Instruction) : Prop where
  noStrayEnd : NoStrayEnd part
  even : part.count .loopStart = part.count .loopEnd

instance (part : List Instruction) : Decidable (Bracketed part) :=
  decidable_of_iff (NoStrayEnd part ∧ part.count .loopStart = part.count .loopEnd)
    ⟨fun both => ⟨both.1, both.2⟩, fun bracketed => ⟨bracketed.noStrayEnd, bracketed.even⟩⟩

/-- A scan ends in front of the rest, if more brackets are closed than are open by then. -/
theorem Brackets.beyond_append_of_closed {α : Type} {mark : α → Mark} {front : List α}
    (noWall : ∀ element ∈ front, mark element ≠ .wall) {depth : Nat}
    (closed : (front.map mark).count .opening + depth < (front.map mark).count .closing)
    (rest : List α) : beyond mark depth (front ++ rest) = beyond mark depth front ++ rest := by
  induction front generalizing depth with
  | nil => exact absurd closed (Nat.not_lt_zero _)
  | cons element front inductionHypothesis =>
      have noWallBehind : ∀ other ∈ front, mark other ≠ .wall := by
        intro other inFront
        exact noWall other (List.mem_cons_of_mem _ inFront)
      rw [List.map_cons, List.count_cons, List.count_cons] at closed
      cases meaning : mark element with
      | wall => exact absurd meaning (noWall element List.mem_cons_self)
      | opening =>
          rw [List.cons_append, beyond_cons_opening meaning, beyond_cons_opening meaning]
          apply inductionHypothesis noWallBehind
          simp only [meaning, beq_self_eq_true, reduceCtorEq, beq_iff_eq, if_true, if_false] at closed
          omega
      | plain =>
          rw [List.cons_append, beyond_cons_plain meaning, beyond_cons_plain meaning]
          apply inductionHypothesis noWallBehind
          simpa [meaning] using closed
      | closing =>
          cases depth with
          | zero =>
              rw [List.cons_append, beyond_cons_closing_zero meaning,
                beyond_cons_closing_zero meaning]
          | succ outer =>
              rw [List.cons_append, beyond_cons_closing_succ meaning,
                beyond_cons_closing_succ meaning]
              apply inductionHypothesis noWallBehind
              simp only [meaning, beq_self_eq_true, reduceCtorEq, beq_iff_eq, if_true, if_false]
                at closed
              omega

namespace Instruction

/-- Counting marks is counting the only instruction that has the mark. -/
theorem count_map_mark {toMark : Instruction → Mark} {mark : Mark} {instruction : Instruction}
    (only : ∀ other, toMark other = mark ↔ other = instruction) (part : List Instruction) :
    (part.map toMark).count mark = part.count instruction := by
  rw [List.count, List.count, List.countP_map]
  apply List.countP_congr
  intro other _
  simpa using only other

theorem forwardMark_eq_opening_iff (instruction : Instruction) :
    instruction.forwardMark = .opening ↔ instruction = .loopStart := by
  cases instruction <;> simp [forwardMark]

theorem forwardMark_eq_closing_iff (instruction : Instruction) :
    instruction.forwardMark = .closing ↔ instruction = .loopEnd := by
  cases instruction <;> simp [forwardMark]

theorem forwardMark_eq_wall_iff (instruction : Instruction) :
    instruction.forwardMark = .wall ↔ instruction = .stop := by
  cases instruction <;> simp [forwardMark]

theorem backwardMark_eq_opening_iff (instruction : Instruction) :
    instruction.backwardMark = .opening ↔ instruction = .loopEnd := by
  cases instruction <;> simp [backwardMark]

theorem backwardMark_eq_closing_iff (instruction : Instruction) :
    instruction.backwardMark = .closing ↔ instruction = .loopStart := by
  cases instruction <;> simp [backwardMark]

theorem backwardMark_ne_wall (instruction : Instruction) : instruction.backwardMark ≠ .wall := by
  cases instruction <;> simp [backwardMark]

end Instruction

section Part

open Instruction

variable {part : List Instruction} {position : Nat}

theorem Brackets.count_take_add_count_drop (part : List Instruction) (instruction : Instruction)
    (position : Nat) :
    (part.take position).count instruction + (part.drop position).count instruction =
      part.count instruction := by
  rw [← List.count_append, List.take_append_drop]

/-- A scan from a loop start ends where the part ends, at the latest. -/
theorem Bracketed.beyond_drop_append (bracketed : Bracketed part) (noStop : .stop ∉ part)
    (found : part[position]? = some .loopStart) (rest : List Instruction) :
    beyond forwardMark 0 (part.drop (position + 1) ++ rest) =
      beyond forwardMark 0 (part.drop (position + 1)) ++ rest := by
  apply beyond_append_of_closed
  · intro instruction inPart isWall
    rw [forwardMark_eq_wall_iff] at isWall
    exact noStop (isWall ▸ List.mem_of_mem_drop inPart)
  · have split : part.take (position + 1) = part.take position ++ [.loopStart] := by
      rw [List.take_add_one, found]
      rfl
    have enough := bracketed.noStrayEnd _ (List.take_prefix position part)
    have starts := count_take_add_count_drop part .loopStart (position + 1)
    have ends := count_take_add_count_drop part .loopEnd (position + 1)
    have even := bracketed.even
    rw [split, List.count_append] at starts ends
    rw [count_map_mark forwardMark_eq_opening_iff, count_map_mark forwardMark_eq_closing_iff]
    simp only [List.count_singleton_self, List.count_singleton, reduceCtorEq, beq_iff_eq,
      if_false] at starts ends
    omega

/-- A scan from a loop end ends where the part begins, at the latest. -/
theorem NoStrayEnd.beyond_reverse_append (noStrayEnd : NoStrayEnd part)
    (found : part[position]? = some .loopEnd) (rest : List Instruction) :
    beyond backwardMark 0 ((part.take position).reverse ++ rest) =
      beyond backwardMark 0 (part.take position).reverse ++ rest := by
  apply beyond_append_of_closed
  · intro instruction _
    exact backwardMark_ne_wall instruction
  · have split : part.take (position + 1) = part.take position ++ [.loopEnd] := by
      rw [List.take_add_one, found]
      rfl
    have enough := noStrayEnd _ (List.take_prefix (position + 1) part)
    rw [split, List.count_append, List.count_append] at enough
    rw [count_map_mark backwardMark_eq_opening_iff, count_map_mark backwardMark_eq_closing_iff,
      List.count_reverse, List.count_reverse]
    simp only [List.count_singleton_self, List.count_singleton, reduceCtorEq, beq_iff_eq,
      if_false] at enough
    omega

end Part

end TapeLang
