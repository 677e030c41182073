import TapeLang.Proofs.Machine.Bare
import TapeLang.Proofs.Machine.Staying

/-!
The machine that checks misses nothing, and does what the machine does that does not check.
One lemma for each operation says so; only the steps that look up a target need to know where
the machine is.
-/

namespace TapeLang

namespace Tape

theorem current?_bare (t : Tape) : t.bare.current? = some t.current := by
  rw [BareTape.current?, current]
  exact Array.getElem?_eq_getElem t.cursor_lt

theorem write?_bare (t : Tape) (value : UInt64) :
    t.bare.write? value = some (t.write value).bare := by
  rw [BareTape.write?]
  exact dif_pos t.cursor_lt

theorem add?_bare (t : Tape) (amount : Int64) : t.bare.add? amount = some (t.add amount).bare := by
  rw [BareTape.add?, current?_bare, Option.bind_some, write?_bare]
  rfl

theorem endInput?_bare (t : Tape) (rule : EndOfInput) :
    t.bare.endInput? rule = some (rule.apply t).bare := by
  cases rule with
  | zero => exact write?_bare t 0
  | max => exact write?_bare t (-1)
  | unchanged => rfl

theorem isEmpty_cells_ne_true (t : Tape) : t.cells.isEmpty ≠ true :=
  Bool.eq_false_iff.mp t.isEmpty_eq_false

theorem reserveRight?_bare (t : Tape) (target : Nat) :
    BareTape.reserveRight? { t.bare with cursor := target } =
      some { (t.reserveRight target).1.bare with cursor := target } := by
  fun_induction reserveRight t target with
  | case1 t inRange =>
      rw [BareTape.reserveRight?]
      exact if_pos inRange
  | case2 t outside growth grown later recursive inductionHypothesis =>
      rw [BareTape.reserveRight?, if_neg (by exact outside),
        if_neg (by exact t.isEmpty_cells_ne_true)]
      rw [recursive] at inductionHypothesis
      exact inductionHypothesis

theorem reserveLeft?_bare (t : Tape) (distance : Nat) :
    t.bare.reserveLeft? distance = some (t.reserveLeft distance).1.bare := by
  fun_induction reserveLeft t distance with
  | case1 t enough =>
      rw [BareTape.reserveLeft?]
      exact if_pos enough
  | case2 t short growth grown later recursive inductionHypothesis =>
      rw [BareTape.reserveLeft?, if_neg (by exact short),
        if_neg (by exact t.isEmpty_cells_ne_true)]
      rw [recursive] at inductionHypothesis
      exact inductionHypothesis

theorem shift?_bare (t : Tape) (distance : Int) :
    t.bare.shift? distance = some (t.shift distance).bare := by
  cases distance with
  | ofNat distance => exact reserveRight?_bare t (t.cursor + distance)
  | negSucc predecessor =>
      have enough := t.le_cursor_reserveLeft (predecessor + 1)
      rw [BareTape.shift?, reserveLeft?_bare, Option.bind_some]
      simp only [bare, Nat.psub_eq_sub enough, Option.map_some]
      rfl

end Tape

namespace Machine

variable {p : Program} {m n : Machine} {instruction : Instruction} {fuel : Nat}

theorem onTape?_bare (p : Program) (tape : Tape) (settings : Settings) (streams : Streams) :
    BareMachine.onTape? p.code tape.bare settings streams =
      some (onTape p tape settings streams).bare := by
  rw [BareMachine.onTape?, Resolver.build?_eq]
  rfl

theorem halt_bare (m : Machine) (outcome : Outcome) :
    m.bare.halt outcome = (m.halt outcome).map id bare := by
  unfold halt BareMachine.halt
  have streams : m.bare.streams = m.streams := rfl
  rw [streams]
  rcases m.streams.flush with ⟨reason | _, flushed⟩ <;> cases outcome <;> rfl

theorem store?_bare (m : Machine) (received : Option UInt8) :
    m.bare.store? received = some (m.store received).bare := by
  cases received with
  | some value => exact m.tape.write?_bare value.toUInt64
  | none => exact m.tape.endInput?_bare m.settings.endOfInput

theorem receive?_bare (m : Machine) : m.bare.receive? = some (m.receive.map id bare) := by
  have streams : m.bare.streams = m.streams := rfl
  unfold receive BareMachine.receive?
  rw [streams]
  rcases m.streams.flush with ⟨reason | _, flushed⟩
  · exact congrArg some (halt_bare { m with streams := flushed } _)
  · dsimp only
    rcases flushed.read with ⟨reason | received, rest⟩
    · exact congrArg some (halt_bare { m with streams := rest } _)
    · dsimp only
      rw [store?_bare]
      rfl

theorem send?_bare (m : Machine) : m.bare.send? = some (m.send.map id bare) := by
  have tape : m.bare.tape = m.tape.bare := rfl
  have streams : m.bare.streams = m.streams := rfl
  unfold send BareMachine.send?
  rw [tape, m.tape.current?_bare, Option.map_some, streams]
  rcases m.streams.write m.tape.current.toUInt8 with ⟨reason | _, rest⟩
  · exact congrArg some (halt_bare { m with streams := rest } _)
  · rfl

theorem perform?_bare (carries : m.Carries p)
    (found : m.program.get? m.pc = some instruction) :
    m.bare.perform? instruction = some ((m.perform instruction).map id bare) := by
  have tape : m.bare.tape = m.tape.bare := rfl
  cases instruction with
  | move distance =>
      rw [BareMachine.perform?, tape, Tape.shift?_bare]
      rfl
  | add amount =>
      rw [BareMachine.perform?, tape, Tape.add?_bare]
      rfl
  | loopStart =>
      have target : m.bare.resolver.afterLoop? m.bare.code m.bare.pc =
          some (m.resolver.afterLoop m.program.code m.pc) := by
        change m.resolver.afterLoop? m.program.code m.pc = _
        rw [carries.resolver]
        exact Resolver.afterLoop?_build _ found
      rw [BareMachine.perform?, tape, Tape.current?_bare, Option.bind_some, target, perform]
      split <;> rfl
  | loopEnd =>
      have target : m.bare.resolver.loopHead? m.bare.code m.bare.pc =
          some (m.resolver.loopHead m.program.code m.pc) := by
        change m.resolver.loopHead? m.program.code m.pc = _
        rw [carries.resolver]
        exact Resolver.loopHead?_build _ found
      rw [BareMachine.perform?, tape, Tape.current?_bare, Option.bind_some, target, perform]
      split <;> rfl
  | input => exact m.receive?_bare
  | output => exact m.send?_bare
  | stop => exact congrArg some (m.halt_bare .finished)

theorem step?_bare (carries : m.Carries p) : m.bare.step? = some (m.step.map id bare) := by
  have next : m.bare.next? = m.next? := rfl
  have limit : m.bare.reachedLimit? = m.reachedLimit? := rfl
  unfold step BareMachine.step?
  rw [next, limit]
  cases found : m.next? with
  | none => exact congrArg some (m.halt_bare .finished)
  | some instruction =>
      cases m.reachedLimit? with
      | some limit => exact congrArg some (m.halt_bare _)
      | none => exact perform?_bare carries (get?_of_next? found)

theorem run?_bare (carries : m.Carries p) (fuel : Nat) :
    m.bare.run? fuel = some ((m.run fuel).map (Prod.map id bare)) := by
  induction fuel generalizing m with
  | zero => rfl
  | succ fuel inductionHypothesis =>
      have next := (invariant_carries p).kept_step carries
      rw [BareMachine.run?, step?_bare carries]
      rcases taken : m.step with ⟨_ | outcome, n⟩
      · rw [taken] at next
        rw [run_succ_of_ran taken]
        exact inductionHypothesis next
      · rw [run_succ_of_halted taken]
        rfl

theorem call?_bare (carries : m.Carries p) (call : Call) :
    m.bare.call? fuel call = some ((m.call fuel call).map (Prod.map id bare)) := by
  cases call with
  | step =>
      rw [BareMachine.call?, step?_bare carries]
      rfl
  | run =>
      rw [BareMachine.call?, run?_bare carries, Machine.call, Option.map_some, Option.map_map,
        Option.map_map]
      rfl
  | reset => rfl

/-- No call misses, and each does what it does without the checks. -/
theorem calls?_bare (carries : m.Carries p) (calls : List Call) :
    m.bare.calls? fuel calls = some ((m.calls fuel calls).map (Prod.map id bare)) := by
  induction calls generalizing m with
  | nil => rfl
  | cons call later inductionHypothesis =>
      rw [BareMachine.calls?, Machine.calls, call?_bare carries, Option.bind_some]
      cases answered : m.call fuel call with
      | none => rfl
      | some answer =>
          obtain ⟨reply, n⟩ := answer
          have next := (invariant_carries p).kept_call carries answered
          simp only [Option.map_some, Prod.map, inductionHypothesis next]
          rfl

end Machine

/-- A machine at a position of its code and at a cell of its tape, with a target for each
instruction. -/
structure BareMachine.InRange (m : BareMachine) : Prop where
  pc_lt : m.pc < m.code.size
  cells_pos : 0 < m.tape.cells.size
  cursor_lt : m.tape.cursor < m.tape.cells.size
  origin_lt : m.tape.origin < m.tape.cells.size
  size_table : ∀ {targets}, m.resolver = .table targets → targets.size = m.code.size

theorem Machine.Within.inRange {p : Program} {front rest : List Instruction} {m : Machine}
    (within : m.Within p front) (split : p.toList = front ++ .stop :: rest) : m.bare.InRange where
  pc_lt := Nat.lt_of_lt_of_eq (within.pc_lt split) (congrArg Program.size within.program).symm
  cells_pos := m.tape.size_pos
  cursor_lt := m.tape.cursor_lt
  origin_lt := m.tape.origin_lt
  size_table {targets} isTable := by
    have built : Resolver.build m.settings.jumps m.program.code = .table targets :=
      within.resolver.symm.trans isTable
    cases mode : m.settings.jumps with
    | scan =>
        rw [mode] at built
        contradiction
    | table =>
        rw [mode] at built
        cases built
        exact JumpTable.size_build m.program.code

/-- Whatever is called on a machine that checks, it misses nothing, from its creation on, as long
as its program ends with a stop and its tape has the cursor and the origin on cells.  It stays
in range, and halts without a fault on a stop only. -/
theorem calls?_stay_in_range (p : Program) (tape : Tape) (settings : Settings)
    (streams : Streams) (fuel : Nat) (calls : List Call) :
    ∃ start answers, BareMachine.onTape? p.code tape.bare settings streams = some start ∧
      start.calls? fuel calls = some answers ∧
      answers = ((Machine.onTape p tape settings streams).calls fuel calls).map
        (Prod.map id Machine.bare) ∧
      start.InRange ∧
      ∀ answer ∈ answers, answer.2.code = p.code ∧ answer.2.InRange ∧ answer.2.step?.isSome ∧
        (answer.1 = some (.halted .finished) → p.code[answer.2.pc]? = some .stop) := by
  obtain ⟨front, split⟩ := p.exists_toList_eq
  have within := Machine.within_onTape p front tape settings streams
  have answered : (Machine.onTape p tape settings streams).bare.calls? fuel calls = some _ :=
    Machine.calls?_bare within.toCarries calls
  refine ⟨_, _, Machine.onTape?_bare p tape settings streams, answered, rfl,
    within.inRange split, ?_⟩
  intro answer inAnswers
  obtain ⟨⟨reply, n⟩, reached, rfl⟩ := List.mem_map.mp inAnswers
  obtain ⟨within', finishes⟩ := Machine.within_of_mem_calls split within reached
  refine ⟨congrArg Program.code within'.program, within'.inRange split, ?_, ?_⟩
  · simp [Machine.step?_bare within'.toCarries]
  · intro finished
    exact within'.get?_eq_stop split (finishes finished)

end TapeLang
