import TapeLang.Proofs.Brackets.Matching
import TapeLang.Proofs.Machine.Installing
import TapeLang.Proofs.Machine.Unending

/-!
Loops that multiply.  The body of such a loop moves and adds only, returns to the cell that it
started on, and takes one from it.  It is repeated as often as that cell says, and so it leaves a
zero there, and adds to every other cell a multiple of what it adds in one round.  Nothing is read
or written on the way, so that the streams may be any.
-/

namespace TapeLang

namespace Instruction

/-- Where a sequence of moves and additions adds, counted from where it starts, and how much. -/
def additions : List Instruction → List (Int × Int64)
  | [] => []
  | .move distance :: rest => (additions rest).map (Prod.map (distance.toInt + ·) id)
  | .add amount :: rest => (0, amount) :: additions rest
  | _ :: rest => additions rest

def travel : List Instruction → Int
  | [] => 0
  | .move distance :: rest => distance.toInt + travel rest
  | _ :: rest => travel rest

/-- What a sequence adds to one cell in all, modulo `2 ^ 64`. -/
def gain (body : List Instruction) (offset : Int) : UInt64 :=
  ((additions body).filter (·.1 = offset)).foldr (fun added total => added.2.toUInt64 + total) 0

theorem gain_move (distance : Int64) (rest : List Instruction) (offset : Int) :
    gain (.move distance :: rest) offset = gain rest (offset - distance.toInt) := by
  have same : (fun p : Int × Int64 => decide (distance.toInt + p.1 = offset)) =
      fun p => decide (p.1 = offset - distance.toInt) := by
    funext p
    exact decide_eq_decide.mpr (by omega)
  simp only [gain, additions, List.filter_map, List.foldr_map, Function.comp_def, Prod.map, id,
    same]

theorem gain_add (amount : Int64) (rest : List Instruction) (offset : Int) :
    gain (.add amount :: rest) offset =
      (if offset = 0 then amount.toUInt64 else 0) + gain rest offset := by
  by_cases here : offset = 0
  · simp [gain, additions, here]
  · simp [gain, additions, here, Ne.symm here]

theorem gain_eq_zero {body : List Instruction} {offset : Int}
    (notAdded : offset ∉ (additions body).map Prod.fst) : gain body offset = 0 := by
  have nothing : (additions body).filter (·.1 = offset) = [] := by
    rw [List.filter_eq_nil_iff]
    intro p inAdditions here
    exact notAdded (List.mem_map.mpr ⟨p, inAdditions, of_decide_eq_true here⟩)
  rw [gain, nothing]
  rfl

end Instruction

open Brackets Instruction

namespace Tape.View

/-- Adds to every value a multiple of the amount for its distance from the head. -/
def raise (v : View) (amounts : Int → UInt64) (times : UInt64) : View :=
  { v with values := fun k => v.values k + times * amounts (k - v.head) }

variable (v : View) (amounts : Int → UInt64)

theorem raise_zero : v.raise amounts 0 = v := by
  simp [raise]

theorem raise_raise (first second : UInt64) :
    (v.raise amounts first).raise amounts second = v.raise amounts (first + second) := by
  ext k
  · rfl
  · simp [raise, UInt64.add_mul, UInt64.add_assoc]

theorem values_raise (times : UInt64) (k : Int) :
    (v.raise amounts times).values (v.head + k) = v.values (v.head + k) + times * amounts k := by
  have distance : v.head + k - v.head = k := by omega
  simp only [raise, distance]

theorem current_raise (times : UInt64) :
    (v.raise amounts times).current = v.current + times * amounts 0 := by
  simp [raise, current]

end Tape.View

/-- A sequence of moves and additions raises every value by what it adds there. -/
theorem Instruction.foldl_onView (body : List Instruction) (v : Tape.View) :
    body.foldl onView v = (v.raise (gain body) 1).shift (travel body) := by
  induction body generalizing v with
  | nil => simp [Tape.View.raise, gain, additions, travel]
  | cons instruction rest inductionHypothesis =>
      rw [List.foldl_cons, inductionHypothesis]
      cases instruction with
      | move distance =>
          ext k
          · simp [onView, Tape.View.shift, Tape.View.raise, travel, Int.add_assoc]
          · simp [onView, Tape.View.shift, Tape.View.raise, gain_move, Int.sub_sub]
      | add amount =>
          ext k
          · rfl
          · by_cases here : k = v.head
            · simp [onView, Tape.View.shift, Tape.View.raise, Tape.View.add, Tape.View.write,
                Tape.View.current, gain_add, ofInt_toInt, here, UInt64.add_assoc]
            · have away : k - v.head ≠ 0 := by omega
              simp [onView, Tape.View.shift, Tape.View.raise, Tape.View.add, Tape.View.write,
                gain_add, here, away]
      | _ => rfl

def Program.looping (body : List Instruction) : Program :=
  .ofList (.loopStart :: (body ++ [.loopEnd]))

section Looping

variable {body : List Instruction}

theorem Instruction.not_mem_of_isStraight (straight : ∀ instruction ∈ body, instruction.isStraight)
    {instruction : Instruction} (bent : instruction.isStraight = false) : instruction ∉ body := by
  intro inBody
  rw [straight instruction inBody] at bent
  contradiction

theorem bracketed_of_isStraight (straight : ∀ instruction ∈ body, instruction.isStraight) :
    Bracketed body where
  noStrayEnd front isFront := by
    have noEnd : .loopEnd ∉ front := fun inFront =>
      not_mem_of_isStraight straight rfl (isFront.subset inFront)
    rw [List.count_eq_zero.mpr noEnd]
    exact Nat.zero_le _
  even := by
    rw [List.count_eq_zero.mpr (not_mem_of_isStraight straight rfl),
      List.count_eq_zero.mpr (not_mem_of_isStraight straight rfl)]

theorem Program.toList_looping (straight : ∀ instruction ∈ body, instruction.isStraight) :
    (looping body).toList = .loopStart :: (body ++ [.loopEnd, .stop]) := by
  have noStop : .stop ∉ body := not_mem_of_isStraight straight rfl
  rw [looping, toList_ofList (by simp [noStop])]
  simp

theorem Program.get?_looping (straight : ∀ instruction ∈ body, instruction.isStraight)
    (position : Nat) : (looping body).get? position =
      (.loopStart :: (body ++ [.loopEnd, .stop]))[position]? := by
  rw [get?, ← Array.getElem?_toList, ← toList, toList_looping straight]

theorem paired_looping (straight : ∀ instruction ∈ body, instruction.isStraight) :
    Paired (Program.looping body).code 0 (body.length + 1) := by
  have inside : stretch (Program.looping body).code 1 (body.length + 1) = body := by
    rw [stretch, ← Program.toList, Program.toList_looping straight]
    simp
  exact {
    ordered := Nat.succ_pos _
    isStart := Program.get?_looping straight 0
    isEnd := by
      rw [← Program.get?, Program.get?_looping straight]
      simp
    noStop := by
      rw [inside]
      exact not_mem_of_isStraight straight rfl
    bracketed := by
      rw [inside]
      exact bracketed_of_isStraight straight }

namespace Machine

/-- A machine that repeats a body of moves and additions without a limit. -/
structure Turns (body : List Instruction) (m : Machine) : Prop
    extends Carries (.looping body) m where
  straight : ∀ instruction ∈ body, instruction.isStraight
  unlimited : m.settings.stepLimit = none

namespace Turns

variable {m : Machine}

theorem get? (turns : m.Turns body) (position : Nat) :
    m.program.get? position = (.loopStart :: (body ++ [.loopEnd, .stop]))[position]? := by
  rw [turns.program, Program.get?_looping turns.straight]

theorem step_eq (turns : m.Turns body) {instruction : Instruction}
    (found : m.program.get? m.pc = some instruction) (goesOn : instruction ≠ .stop) :
    m.step = m.perform instruction :=
  step_of_allows (next?_eq_some found goesOn) (allows_of_unlimited turns.unlimited 1)

theorem moved (turns : m.Turns body) (tape : Tape) (pc steps : Nat) :
    Turns body { m with tape, pc, steps } :=
  ⟨⟨turns.program, turns.resolver⟩, turns.straight, turns.unlimited⟩

/-- A machine that finds a zero at the start gets behind the loop. -/
theorem step_start (turns : m.Turns body) (atStart : m.pc = 0) :
    m.step = (.ran, m.jump (if m.tape.current = 0 then body.length + 2 else 1)) := by
  have found : m.program.get? m.pc = some .loopStart := by rw [turns.get?, atStart]; rfl
  rw [turns.step_eq found (by simp), perform]
  split
  · rw [turns.resolver, Resolver.afterLoop_build _ found, atStart, turns.program,
      (paired_looping turns.straight).afterLoop_eq]
  · rw [advance, atStart]

/-- A machine that finds a zero at the end leaves the loop. -/
theorem step_end (turns : m.Turns body) (atEnd : m.pc = body.length + 1) :
    m.step = (.ran, m.jump (if m.tape.current = 0 then body.length + 2 else 0)) := by
  have found : m.program.get? m.pc = some .loopEnd := by
    rw [turns.get?, atEnd]
    simp
  rw [turns.step_eq found (by simp), perform]
  split
  · rw [advance, atEnd]
  · rw [turns.resolver, Resolver.loopHead_build _ found, atEnd, turns.program,
      (paired_looping turns.straight).loopHead_eq]

theorem step_behind (turns : m.Turns body) (behind : m.pc = body.length + 2) :
    m.step = m.halt .finished := by
  have found : m.program.get? m.pc = some .stop := by
    rw [turns.get?, behind]
    simp
  have nothing : m.next? = none := by rw [next?, found]
  exact step_of_next?_eq_none nothing

/-- From the start, a machine that finds anything else gets to the end of the body. -/
theorem reaches_end (turns : m.Turns body) (atStart : m.pc = 0) (nonzero : m.tape.current ≠ 0) :
    m.Reaches ((m.jump 1).pass body) := by
  have ran := turns.step_start atStart
  rw [if_neg nonzero] at ran
  have here : m.program.toList.drop 1 = body ++ [.loopEnd, .stop] := by
    rw [turns.program, Program.toList_looping turns.straight, List.drop_one, List.tail_cons]
  exact reaches_of_ran ran (reaches_pass turns.straight here turns.unlimited)

/-- The second machine has left the loop that the first one is in, and has raised all values as
often as the cell of the first one says. -/
structure Leaves (body : List Instruction) (m n : Machine) : Prop where
  reaches : m.Reaches n
  turns : n.Turns body
  behind : n.pc = body.length + 2
  streams : n.streams = m.streams
  view : n.tape.view = m.tape.view.raise (gain body) m.tape.current

theorem leaves_of_zero (turns : m.Turns body) (zero : m.tape.current = 0)
    (ran : m.step = (.ran, m.jump (body.length + 2))) :
    Leaves body m (m.jump (body.length + 2)) where
  reaches := reaches_of_ran ran (.refl _)
  turns := turns.moved _ _ _
  behind := rfl
  streams := rfl
  view := by
    rw [zero, Tape.View.raise_zero]
    rfl

/-- The induction is on what the cell says.  Every round takes one from it, and raises all values
once. -/
theorem exists_leaves (returns : travel body = 0) (takesOne : gain body 0 = -1)
    (turns : m.Turns body) (atStart : m.pc = 0) : ∃ n, Leaves body m n := by
  generalize count : m.tape.current.toNat = rounds
  induction rounds generalizing m with
  | zero =>
      have zero : m.tape.current = 0 := UInt64.toNat_inj.mp count
      have ran := turns.step_start atStart
      rw [if_pos zero] at ran
      exact ⟨_, turns.leaves_of_zero zero ran⟩
  | succ rounds inductionHypothesis =>
      have nonzero : m.tape.current ≠ 0 := by
        intro zero
        rw [zero] at count
        contradiction
      let l := (m.jump 1).pass body
      have round : m.Reaches l := turns.reaches_end atStart nonzero
      have turnsStill : l.Turns body := turns.moved _ _ _
      have raised : l.tape.view = m.tape.view.raise (gain body) 1 := by
        rw [view_pass, foldl_onView, returns, Tape.View.shift_zero]
        rfl
      have less : 1 + l.tape.current = m.tape.current := by
        rw [← Tape.current_view, raised, Tape.View.current_raise, Tape.current_view, takesOne]
        grind
      -- The cell was not zero, and so taking one from it does not wrap around.
      have left : l.tape.current.toNat = rounds := by
        have wrapped := congrArg UInt64.toNat less
        rw [UInt64.toNat_add, count] at wrapped
        have bounded := l.tape.current.toNat_lt
        have bounded' := m.tape.current.toNat_lt
        simp at wrapped
        omega
      have ran := turnsStill.step_end (Nat.add_comm 1 body.length)
      have leaves : ∃ n, Leaves body l n := by
        split at ran
        · next zero => exact ⟨_, turnsStill.leaves_of_zero zero ran⟩
        · have again : (l.jump 0).Turns body := turns.moved _ _ _
          obtain ⟨n, leaves⟩ := inductionHypothesis again rfl left
          exact ⟨n, reaches_of_ran ran leaves.reaches, leaves.turns, leaves.behind, leaves.streams,
            leaves.view⟩
      obtain ⟨n, leaves⟩ := leaves
      refine ⟨n, round.trans leaves.reaches, leaves.turns, leaves.behind, leaves.streams, ?_⟩
      rw [leaves.view, raised, Tape.View.raise_raise, less]

end Turns

/-- A loop whose body moves and adds only, returns to where it started, and takes one from the cell
there, halts on every tape.  It leaves a zero in the cell, and adds to every other cell as many
times what the body adds to it as the cell said.  The cells that the body does not add to are
left as they were. -/
theorem looping_multiplies (body : List Instruction) (tape : Tape) (settings : Settings)
    (streams : Streams) (straight : ∀ instruction ∈ body, instruction.isStraight)
    (returns : travel body = 0) (takesOne : gain body 0 = -1)
    (unlimited : settings.stepLimit = none) :
    ∃ outcome last, (onTape (.looping body) tape settings streams).Halts outcome last ∧
      outcome = (match streams.flush.1 with
        | .ok _ => .finished
        | .error reason => .failed (.io reason)) ∧
      last.streams = streams.flush.2 ∧
      last.tape.offset = tape.offset ∧ last.tape.valueAt tape.offset = 0 ∧
      (∀ k ≠ 0, last.tape.valueAt (tape.offset + k) =
        tape.valueAt (tape.offset + k) + tape.current * gain body k) ∧
      ∀ k ∉ (additions body).map Prod.fst,
        last.tape.valueAt (tape.offset + k) = tape.valueAt (tape.offset + k) := by
  let m := onTape (.looping body) tape settings streams
  have turns : m.Turns body := ⟨carries_onTape _ tape settings streams, straight, unlimited⟩
  obtain ⟨n, leaves⟩ := turns.exists_leaves returns takesOne rfl
  have halted := leaves.turns.step_behind leaves.behind
  rw [halt_eq] at halted
  have shows (k : Int) : n.tape.valueAt (tape.offset + k) =
      tape.valueAt (tape.offset + k) + tape.current * gain body k := by
    have raised := congrFun (congrArg Tape.View.values leaves.view) (tape.offset + k)
    exact raised.trans (tape.view.values_raise (gain body) tape.current k)
  refine ⟨_, _, leaves.reaches.halts ⟨1, run_succ_of_halted halted 0⟩, ?final, ?flushed, ?back,
    ?zero, ?others, ?untouched⟩
  case final =>
    unfold finalOutcome
    rw [leaves.streams, show m.streams = streams from rfl]
    rcases streams.flush with ⟨reason | _, _⟩ <;> rfl
  case flushed =>
    rw [leaves.streams]
    rfl
  case back => exact congrArg Tape.View.head leaves.view
  case zero =>
    have here := shows 0
    rw [Int.add_zero, takesOne, Tape.valueAt_offset] at here
    exact here.trans (by grind)
  case others =>
    intro k _
    exact shows k
  case untouched =>
    intro k notAdded
    have same := shows k
    rwa [gain_eq_zero notAdded, UInt64.mul_zero, UInt64.add_zero] at same

/-- Five times three, in a cell that the tape does not have yet, and five times zero. -/
theorem looping_multiplies_of_five :
    let body : List Instruction :=
      [.move (-1), .add 3, .move 2, .add 7, .add (-7), .move (-1), .add (-1)]
    (∀ instruction ∈ body, instruction.isStraight) ∧ travel body = 0 ∧ gain body 0 = -1 ∧
      ∃ last, (onTape (.looping body) ((Tape.blank 1).write 5) { jumps := .table } {}).Halts
          .finished last ∧
        last.tape.valueAt 0 = 0 ∧ last.tape.valueAt (-1) = 15 ∧ last.tape.valueAt 1 = 0 ∧
        last.tape.valueAt 2 = 0 := by
  intro body
  have straight : ∀ instruction ∈ body, instruction.isStraight := by decide
  have returns : travel body = 0 := by decide
  have takesOne : gain body 0 = -1 := by decide
  obtain ⟨_, last, halts, rfl, _, _, zero, others, untouched⟩ :=
    looping_multiplies body ((Tape.blank 1).write 5) { jumps := .table } {} straight returns
      takesOne rfl
  have left : last.tape.valueAt (-1) = 15 := by
    rw [show (-1 : Int) = ((Tape.blank 1).write 5).offset + -1 from rfl, others (-1) (by decide)]
    decide +kernel
  have right : last.tape.valueAt 1 = 0 := by
    rw [show (1 : Int) = ((Tape.blank 1).write 5).offset + 1 from rfl, others 1 (by decide)]
    decide +kernel
  have beyond : last.tape.valueAt 2 = 0 := by
    rw [show (2 : Int) = ((Tape.blank 1).write 5).offset + 2 from rfl, untouched 2 (by decide)]
    decide +kernel
  exact ⟨straight, returns, takesOne, last, halts, zero, left, right, beyond⟩

end Machine

end Looping

end TapeLang
