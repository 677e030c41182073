import TapeLang.Proofs.Brackets.Table
import TapeLang.Proofs.Command.Meaning
import TapeLang.Proofs.Machine.Progress
import TapeLang.Proofs.Streams.Serving

/-!
The machine on the code of a command.  It gets from the start of the code to its end if and
only if the command ends, in the situation that the command ends in.
-/

namespace TapeLang

open Brackets

/-- A machine in a situation, between two parts of its code. -/
structure Meets (rule : EndOfInput) (before after : List Instruction) (s : Situation)
    (m : Machine) : Prop where
  code : m.program.toList = before ++ after
  pc : m.pc = before.length
  resolver : m.resolver = .build m.settings.jumps m.program.code
  unlimited : m.settings.stepLimit = none
  rule : m.settings.endOfInput = rule
  view : m.tape.view = s.tape
  streams : m.streams.Serves s.unread s.output

namespace Meets

variable {rule : EndOfInput} {before before' after after' : List Instruction}
  {s t : Situation} {m : Machine} {instruction : Instruction} {c body : Command}

theorem current (meets : Meets rule before after s m) : m.tape.current = s.tape.current := by
  rw [← meets.view, Tape.current_view]

theorem get?_pc (meets : Meets rule before (instruction :: after) s m) :
    m.program.get? m.pc = some instruction := by
  have here : m.program.toList.drop m.pc = instruction :: after := by
    rw [meets.code, meets.pc, List.drop_left]
  exact Machine.get?_of_drop here

theorem step_eq (meets : Meets rule before (instruction :: after) s m)
    (goesOn : instruction ≠ .stop) : m.step = m.perform instruction :=
  Machine.step_of_allows (Machine.next?_eq_some meets.get?_pc goesOn)
    (Machine.allows_of_unlimited meets.unlimited 1)

/-- The machine goes on between two other parts of its code. -/
theorem jump (meets : Meets rule before after s m) (split : before ++ after = before' ++ after')
    {u : Tape} {r : Streams} (view : u.view = t.tape) (streams : r.Serves t.unread t.output) :
    Meets rule before' after' t ({ m with tape := u, streams := r }.jump before'.length) :=
  ⟨meets.code.trans split, rfl, meets.resolver, meets.unlimited, meets.rule, view, streams⟩

theorem advance (meets : Meets rule before (instruction :: after) s m)
    {u : Tape} {r : Streams} (view : u.view = t.tape) (streams : r.Serves t.unread t.output) :
    Meets rule (before ++ [instruction]) after t { m with tape := u, streams := r }.advance := by
  have split : before ++ instruction :: after = before ++ [instruction] ++ after := by simp
  have moved := meets.jump split view streams
  rwa [List.length_append, ← meets.pc] at moved

theorem send (meets : Meets rule before (.output :: after) s m) :
    ∃ n, m.send = (.ran, n) ∧ Meets rule (before ++ [.output]) after (s.act rule .output) n := by
  obtain ⟨sent, write, serves⟩ := meets.streams.write m.tape.current.toUInt8
  rw [Machine.send, write]
  rw [meets.current] at serves
  exact ⟨_, rfl, meets.advance meets.view serves⟩

theorem receive (meets : Meets rule before (.input :: after) s m) :
    ∃ n, m.receive = (.ran, n) ∧ Meets rule (before ++ [.input]) after (s.read rule) n := by
  obtain ⟨flushed, flush, serves⟩ := meets.streams.flush
  unfold Situation.read
  split
  · next unread =>
      rw [unread] at serves
      obtain ⟨ended, read, serves⟩ := serves.read_nil
      refine ⟨_, Machine.receive_of_ok flush read, meets.advance ?_ (unread ▸ serves)⟩
      rw [Machine.store, Tape.view_endOfInput, meets.view, meets.rule]
  · next value rest unread =>
      rw [unread] at serves
      obtain ⟨taken, read, serves⟩ := serves.read_cons
      refine ⟨_, Machine.receive_of_ok flush read, meets.advance ?_ serves⟩
      rw [Machine.store, Tape.view_write, meets.view]

theorem act {action : Action} (meets : Meets rule before (action.instruction :: after) s m) :
    ∃ n, m.step = (.ran, n) ∧
      Meets rule (before ++ [action.instruction]) after (s.act rule action) n := by
  rw [meets.step_eq (by cases action <;> simp [Action.instruction])]
  cases action with
  | move distance =>
      refine ⟨_, rfl, meets.advance ?_ meets.streams⟩
      rw [Tape.view_shift, meets.view]
      rfl
  | add amount =>
      refine ⟨_, rfl, meets.advance ?_ meets.streams⟩
      rw [Tape.view_add, meets.view]
      rfl
  | input => exact meets.receive
  | output => exact meets.send

/-- On a zero, the machine gets past a loop in one step. -/
theorem skip (meets : Meets rule before ((Command.loop body).code ++ after) s m)
    (zero : s.tape.current = 0) :
    ∃ n, m.step = (.ran, n) ∧ Meets rule (before ++ (Command.loop body).code) after s n := by
  have here : m.program.code[m.pc]? = some .loopStart := meets.get?_pc
  have target : m.resolver.afterLoop m.program.code m.pc =
      (before ++ (Command.loop body).code).length := by
    rw [meets.resolver, Resolver.afterLoop_build _ here, meets.pc, List.length_append]
    exact Command.afterLoop_of_code meets.code
  rw [meets.step_eq (by simp), Machine.perform, if_pos (meets.current.trans zero), target]
  exact ⟨_, rfl, meets.jump (List.append_assoc before _ after).symm meets.view meets.streams⟩

/-- On anything else it gets to the body. -/
theorem enter (meets : Meets rule before ((Command.loop body).code ++ after) s m)
    (nonzero : s.tape.current ≠ 0) :
    ∃ n, m.step = (.ran, n) ∧
      Meets rule (before ++ [.loopStart]) (body.code ++ .loopEnd :: after) s n := by
  have split : (Command.loop body).code ++ after =
      .loopStart :: (body.code ++ .loopEnd :: after) := by
    simp [Command.code]
  rw [split] at meets
  have isNonzero : m.tape.current ≠ 0 := meets.current ▸ nonzero
  rw [meets.step_eq (by simp), Machine.perform, if_neg isNonzero]
  exact ⟨_, rfl, meets.advance meets.view meets.streams⟩

/-- At the end of the body, the machine leaves the loop on a zero. -/
theorem leave (meets : Meets rule (before ++ [.loopStart] ++ body.code) (.loopEnd :: after) s m)
    (zero : s.tape.current = 0) :
    ∃ n, m.step = (.ran, n) ∧ Meets rule (before ++ (Command.loop body).code) after s n := by
  have split : before ++ (Command.loop body).code =
      before ++ [.loopStart] ++ body.code ++ [.loopEnd] := by
    simp [Command.code]
  rw [meets.step_eq (by simp), Machine.perform, if_pos (meets.current.trans zero), split]
  exact ⟨_, rfl, meets.advance meets.view meets.streams⟩

/-- On anything else it gets back to the start of the loop. -/
theorem repeats (meets : Meets rule (before ++ [.loopStart] ++ body.code) (.loopEnd :: after) s m)
    (nonzero : s.tape.current ≠ 0) :
    ∃ n, m.step = (.ran, n) ∧ Meets rule before ((Command.loop body).code ++ after) s n := by
  have here : m.program.code[m.pc]? = some .loopEnd := meets.get?_pc
  have regroup : before ++ [.loopStart] ++ body.code = before ++ .loopStart :: body.code := by
    simp
  have isNonzero : m.tape.current ≠ 0 := meets.current ▸ nonzero
  have target : m.resolver.loopHead m.program.code m.pc = before.length := by
    rw [meets.resolver, Resolver.loopHead_build _ here, meets.pc, regroup]
    exact Command.loopHead_of_code (regroup ▸ meets.code)
  rw [meets.step_eq (by simp), Machine.perform, if_neg isNonzero, target]
  exact ⟨_, rfl, meets.jump (by simp [Command.code]) meets.view meets.streams⟩

/-- If the command ends, the machine gets to the end of its code. -/
theorem reaches_of_ends (ends : c.Ends rule s t) (meets : Meets rule before (c.code ++ after) s m) :
    ∃ n, m.Reaches n ∧ Meets rule (before ++ c.code) after t n := by
  induction ends generalizing before after m with
  | skip => exact ⟨m, .refl m, by simpa [Command.code] using meets⟩
  | act =>
      obtain ⟨n, ran, meets'⟩ := meets.act
      exact ⟨n, Machine.reaches_of_ran ran (.refl n), meets'⟩
  | sequence _ _ onFirst onSecond =>
      rw [Command.code, List.append_assoc] at meets
      obtain ⟨l, reaches, meets'⟩ := onFirst meets
      obtain ⟨n, reaches', meets''⟩ := onSecond meets'
      exact ⟨n, reaches.trans reaches', by simpa [Command.code] using meets''⟩
  | loopDone zero =>
      obtain ⟨n, ran, meets'⟩ := meets.skip zero
      exact ⟨n, Machine.reaches_of_ran ran (.refl n), meets'⟩
  | @loopAgain body s t u nonzero _ again onBody onLoop =>
      obtain ⟨_, ran, inside⟩ := meets.enter nonzero
      obtain ⟨l, reaches, atEnd⟩ := onBody inside
      have entered := Machine.reaches_of_ran ran reaches
      -- The machine decides at the closing bracket, the derivation at the next round.
      by_cases zero : t.tape.current = 0
      · obtain ⟨n, ran', outside⟩ := atEnd.leave zero
        cases again with
        | loopDone _ => exact ⟨n, entered.trans (Machine.reaches_of_ran ran' (.refl n)), outside⟩
        | loopAgain nonzero' => exact absurd zero nonzero'
      · obtain ⟨_, ran', atStart⟩ := atEnd.repeats zero
        obtain ⟨n, reaches', outside⟩ := onLoop atStart
        exact ⟨n, entered.trans (Machine.reaches_of_ran ran' reaches'), outside⟩

/-- If the machine halts, the command ends.  The induction is on the fuel, and within it on the
command; what is left of the fuel is enough from the end of the code. -/
theorem ends_of_run {bound fuel : Nat} {result : Outcome × Machine} (enough : fuel ≤ bound)
    (meets : Meets rule before (c.code ++ after) s m) (ended : m.run fuel = some result) :
    ∃ t n left, left ≤ fuel ∧ c.Ends rule s t ∧ Meets rule (before ++ c.code) after t n ∧
      n.run left = some result := by
  induction bound generalizing c before after s m fuel with
  | zero =>
      obtain rfl := Nat.le_zero.mp enough
      contradiction
  | succ bound onFuel =>
      induction c generalizing before after s m fuel with
      | skip => exact ⟨s, m, fuel, Nat.le_refl _, .skip, by simpa [Command.code] using meets, ended⟩
      | act action =>
          obtain ⟨n, ran, meets'⟩ := meets.act
          obtain ⟨left, fewer, ended'⟩ := Machine.exists_run_of_ran ran ended
          exact ⟨_, n, left, Nat.le_of_lt fewer, .act, meets', ended'⟩
      | sequence first second onFirst onSecond =>
          rw [Command.code, List.append_assoc] at meets
          obtain ⟨_, l, left, fewer, ends, meets', ended'⟩ := onFirst enough meets ended
          obtain ⟨t, n, left', fewer', ends', meets'', ended''⟩ :=
            onSecond (Nat.le_trans fewer enough) meets' ended'
          refine ⟨t, n, left', Nat.le_trans fewer' fewer, .sequence ends ends', ?_, ended''⟩
          simpa [Command.code] using meets''
      | loop body _ =>
          by_cases zero : s.tape.current = 0
          · obtain ⟨n, ran, outside⟩ := meets.skip zero
            obtain ⟨left, fewer, ended'⟩ := Machine.exists_run_of_ran ran ended
            exact ⟨s, n, left, Nat.le_of_lt fewer, .loopDone zero, outside, ended'⟩
          obtain ⟨_, ran, inside⟩ := meets.enter zero
          obtain ⟨left, fewer, ended⟩ := Machine.exists_run_of_ran ran ended
          obtain ⟨t, _, left', fewer', ends, atEnd, ended⟩ := onFuel (by omega) inside ended
          by_cases zero' : t.tape.current = 0
          · obtain ⟨n, ran', outside⟩ := atEnd.leave zero'
            obtain ⟨left'', fewer'', ended⟩ := Machine.exists_run_of_ran ran' ended
            exact ⟨t, n, left'', by omega, .loopAgain zero ends (.loopDone zero'), outside, ended⟩
          obtain ⟨_, ran', atStart⟩ := atEnd.repeats zero'
          obtain ⟨left'', fewer'', ended⟩ := Machine.exists_run_of_ran ran' ended
          -- The next round is of the same loop; only the fuel is less.
          obtain ⟨u, n, rest, fewest, again, outside, ended⟩ := onFuel (by omega) atStart ended
          exact ⟨u, n, rest, by omega, .loopAgain zero ends again, outside, ended⟩

/-- At the end of the code the machine halts at once, and shows the situation then. -/
theorem step_of_stop (meets : Meets rule before [.stop] s m) :
    ∃ n, m.step = (.halted .finished, n) ∧ n.tape.view = s.tape ∧
      n.streams.Serves s.unread s.output := by
  obtain ⟨flushed, flush, serves⟩ := meets.streams.flush
  have next : m.next? = none := by rw [Machine.next?, meets.get?_pc]
  rw [Machine.step_of_next?_eq_none next, Machine.halt_of_ok flush]
  exact ⟨_, rfl, meets.view, serves⟩

end Meets

/-- The machine at the start of the code of a command. -/
theorem meets_onTape (c : Command) (tape : Tape) {settings : Settings}
    (unlimited : settings.stepLimit = none) (input : List UInt8) :
    Meets settings.endOfInput [] (c.code ++ [.stop]) { tape := tape.view, unread := input }
      (.onTape c.program tape settings (.ofBytes input)) :=
  ⟨c.toList_program, rfl, rfl, unlimited, rfl, rfl, Streams.serves_ofBytes input⟩

namespace Command

variable {c : Command} {tape : Tape} {settings : Settings} {input : List UInt8} {t : Situation}
  {m : Machine}

theorem halts_of_ends (unlimited : settings.stepLimit = none)
    (ends : c.Ends settings.endOfInput { tape := tape.view, unread := input } t) :
    ∃ m, (Machine.onTape c.program tape settings (.ofBytes input)).Halts .finished m ∧
      m.tape.view = t.tape ∧ m.streams.Serves t.unread t.output := by
  obtain ⟨n, reaches, meets⟩ := (meets_onTape c tape unlimited input).reaches_of_ends ends
  obtain ⟨m, halted, shown⟩ := meets.step_of_stop
  exact ⟨m, reaches.halts ⟨1, Machine.run_succ_of_halted halted 0⟩, shown⟩

theorem ends_of_halts {outcome : Outcome} (unlimited : settings.stepLimit = none)
    (halts : (Machine.onTape c.program tape settings (.ofBytes input)).Halts outcome m) :
    outcome = .finished ∧ ∃ t, c.Ends settings.endOfInput { tape := tape.view, unread := input } t ∧
      m.tape.view = t.tape ∧ m.streams.Serves t.unread t.output := by
  obtain ⟨fuel, ended⟩ := halts
  obtain ⟨t, n, left, _, ends, meets, ended⟩ :=
    (meets_onTape c tape unlimited input).ends_of_run (Nat.le_refl fuel) ended
  obtain ⟨last, halted, shown⟩ := meets.step_of_stop
  cases left with
  | zero => contradiction
  | succ left =>
      rw [Machine.run_succ_of_halted halted] at ended
      cases ended
      exact ⟨rfl, t, ends, shown⟩

/-- A command ends in a situation if and only if the machine on its code halts in it.  The
machine never fails, so that it runs forever if the command does not end. -/
theorem ends_iff_halts (c : Command) (tape : Tape) (settings : Settings)
    (unlimited : settings.stepLimit = none) (input unread output : List UInt8) (head : Int)
    (values : Int → UInt64) :
    let m := Machine.onTape c.program tape settings (.ofBytes input)
    (c.Ends settings.endOfInput { tape := tape.view, unread := input }
        { tape := ⟨head, values⟩, unread, output } ↔
      ∃ last, m.Halts .finished last ∧ last.tape.offset = head ∧
        (∀ k, last.tape.valueAt k = values k) ∧ last.streams.reads = unread.map .byte ∧
        last.streams.written = output) ∧
      ∀ outcome last, m.Halts outcome last → outcome = .finished := by
  intro m
  refine ⟨⟨?_, ?_⟩, fun outcome last halts => (ends_of_halts unlimited halts).1⟩
  · intro ends
    obtain ⟨last, halts, view, serves⟩ := halts_of_ends unlimited ends
    exact ⟨last, halts, congrArg Tape.View.head view,
      fun k => congrFun (congrArg Tape.View.values view) k, serves.reads, serves.written⟩
  · rintro ⟨last, halts, rfl, shows, reads, rfl⟩
    obtain ⟨_, t, ends, view, serves⟩ := ends_of_halts unlimited halts
    have unread_eq : t.unread = unread := by
      have same := serves.reads.symm.trans reads
      exact (List.map_inj_right fun _ _ => ReadReply.byte.inj).mp same
    have tape_eq : t.tape = ⟨last.tape.offset, values⟩ := by
      rw [← view]
      exact Tape.View.ext rfl (funext shows)
    rw [← unread_eq, ← tape_eq, serves.written]
    exact ends

/-- Reads a byte, and writes it and every smaller one down to one. -/
def countdown : Command :=
  .sequence (.act .input) (.loop (.sequence (.act .output) (.act (.add (-1)))))

theorem ends_iff_halts_countdown :
    ({ jumps := .table } : Settings).stepLimit = none ∧
      ∃ last, (Machine.onTape countdown.program (.blank 1) { jumps := .table }
          (.ofBytes [2, 7])).Halts .finished last ∧
        last.streams.reads = [.byte 7] ∧ last.streams.written = [2, 1] := by
  have ends : countdown.Ends .zero { tape := (Tape.blank 1).view, unread := [2, 7] }
      { tape := ((((Tape.blank 1).view.write 2).add (-1)).add (-1)), unread := [7],
        output := [2, 1] } := by
    apply Ends.sequence .act
    apply Ends.loopAgain (by decide) (.sequence .act .act)
    apply Ends.loopAgain (by decide) (.sequence .act .act)
    exact Ends.loopDone (by decide)
  obtain ⟨last, halts, _, _, reads, written⟩ :=
    (ends_iff_halts countdown (.blank 1) { jumps := .table } rfl [2, 7] [7] [2, 1] _ _).1.mp ends
  exact ⟨rfl, last, halts, reads, written⟩

end Command

end TapeLang
