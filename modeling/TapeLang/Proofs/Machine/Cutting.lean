import TapeLang.Proofs.Machine.Condensing
import TapeLang.Proofs.Machine.Staying

/-!
Code that no run gets to.  A machine in front of a stop stays there, and neither the
instructions behind the stop nor their brackets make a difference to it.
-/

namespace TapeLang

open Brackets

variable {p : Program} {front rest : List Instruction} {m : Machine}

theorem Machine.Within.get?_ending (within : m.Within p front)
    (split : p.toList = front ++ .stop :: rest) :
    (Program.ending front).get? m.pc = m.program.get? m.pc := by
  rw [within.program, Program.get?, Program.get?, ← Array.getElem?_toList,
    ← Array.getElem?_toList, ← Program.toList, ← Program.toList, Program.toList_ending, split]
  rcases Nat.lt_or_eq_of_le within.pc_le with inside | atStop
  · rw [List.getElem?_append_left inside, List.getElem?_append_left inside]
  · rw [atStop, List.getElem?_append_right (Nat.le_refl _),
      List.getElem?_append_right (Nat.le_refl _), Nat.sub_self]
    rfl

/-- Up to a stop, a step does not notice that the code ends there. -/
theorem Machine.Within.agrees (within : m.Within p front)
    (split : p.toList = front ++ .stop :: rest) (jumps : JumpMode) :
    m.Agrees (.ending front) jumps where
  get? := within.get?_ending split
  afterLoop found := by
    have inside := within.pc_lt_length split found (by simp)
    have found' := (within.get?_ending split).trans found
    -- Both targets are counted from the stop backward.
    have here := afterLoop_add_length_beyond (Program.toList_ending front) inside
    have there := afterLoop_add_length_beyond split inside
    rw [within.resolver, Resolver.afterLoop_build _ found, Resolver.afterLoop_build _ found',
      within.program]
    exact Nat.add_right_cancel (here.trans there.symm)
  loopHead found := by
    have found' := (within.get?_ending split).trans found
    have here := loopHead_eq_length_beyond (Program.toList_ending front) within.pc_le
    have there := loopHead_eq_length_beyond split within.pc_le
    rw [within.resolver, Resolver.loopHead_build _ found, Resolver.loopHead_build _ found',
      within.program]
    exact here.trans there.symm

/-- What stands behind a stop makes no difference. -/
theorem alike_ending (split : p.toList = front ++ .stop :: rest) (tape : Tape)
    (settings : Settings) (streams : Streams) :
    (Machine.onTape p tape settings streams).Alike
      (.onTape (.ending front) tape settings streams) := by
  have unnoticed : Machine.Unnoticed (Machine.Within p front)
      (Machine.install (.ending front) settings.jumps) :=
    { toInvariant := Machine.invariant_within split
      step_change := fun within => Machine.step_install (within.agrees split settings.jumps)
      reset_change := fun _ => rfl }
  exact Machine.alike_install unnoticed (Machine.within_onTape p front tape settings streams)

end TapeLang
